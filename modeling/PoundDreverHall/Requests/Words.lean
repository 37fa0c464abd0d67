import PoundDreverHall.Decoder.WriteSequence
import PoundDreverHall.Server.Handlers

/-!
# Requests - the words of the handlers in the fabric

The handlers build a command word from bit-fields, and the core takes it apart with
slices.  This file shows what the core makes of the words that the handlers send.

Main results:

- Theorem {lit}`risingWords_strobed`: strobed commands rise once each, in order.
- Theorem {lit}`execRegs_setPidWord`: the effect of a PID write.
- Theorem {lit}`execRegs_setFirWord`: the effect of a filter write.
-/

namespace PoundDreverHall
namespace Requests

open Clocked Device Server PdhCore

/-! ## Fields and slices -/

/-- A slice of the data is a slice of the word. -/
theorem dataW_extractLsb' (w : BitVec 32) {lo len : ℕ} (h : lo + len ≤ 26) :
    (dataW w).extractLsb' lo len = w.extractLsb' lo len := by
  apply BitVec.eq_of_getLsbD_eq
  intro i hi
  simp only [dataW, BitVec.getLsbD_extractLsb', hi, decide_true, Bool.true_and]
  simp [show lo + i < 26 by omega]

/-- The core finds the command that was assigned. -/
theorem cmdW_cmdWord (c : PdhCmdE) : cmdW (cmdWord c) = Cmd.ofCode c.code :=
  congrArg Cmd.ofCode (BitField.get_set PdhCmdT.cmd c.code 0#32)

/-- A command alone does not reset. -/
theorem rstBit_cmdWord (c : PdhCmdE) : rstBit (cmdWord c) = false :=
  BitField.getLsbD_set_of_disjoint (f := PdhCmdT.cmd) (.inr (Nat.le_succ 30)) c.code 0#32

section Data

variable {f : BitField 32} (hf : f.lo + f.len ≤ 26) (v : BitVec f.len) (w : BitVec 32)

include hf

/-- A field of the data does not change the command. -/
theorem cmdW_set : cmdW (f.set v w) = cmdW w := by
  have hcmd := BitField.get_set_of_disjoint (g := PdhCmdT.cmd) (.inl hf) v w
  exact congrArg Cmd.ofCode hcmd

/-- A field below bit 26 does not reach the reset bit. -/
theorem rstBit_set : rstBit (f.set v w) = rstBit w :=
  BitField.getLsbD_set_of_disjoint (.inr (by omega)) v w

end Data

/-! ## Strobes -/

/-- The core finds the strobe that was assigned. -/
theorem strobeBit_strobe (v : BitVec 1) (w : BitVec 32) :
    strobeBit (PdhCmdT.strobe.set v w) = v.getLsbD 0 := by
  have hbit := BitField.getLsbD_set PdhCmdT.strobe v w 30
  exact hbit

/-- The strobe is not the reset bit. -/
theorem rstBit_strobe (v : BitVec 1) (w : BitVec 32) :
    rstBit (PdhCmdT.strobe.set v w) = rstBit w :=
  BitField.getLsbD_set_of_disjoint (f := PdhCmdT.strobe) (.inr (Nat.le_refl 31)) v w

/-- The strobe is not part of the command. -/
theorem cmdW_strobe (v : BitVec 1) (w : BitVec 32) : cmdW (PdhCmdT.strobe.set v w) = cmdW w := by
  have hcmd := BitField.get_set_of_disjoint (f := PdhCmdT.strobe) (g := PdhCmdT.cmd)
    (.inr (Nat.le_refl 30)) v w
  exact congrArg Cmd.ofCode hcmd

/-- Nor is it part of the data. -/
theorem dataW_strobe (v : BitVec 1) (w : BitVec 32) :
    dataW (PdhCmdT.strobe.set v w) = dataW w :=
  BitField.get_set_of_disjoint (f := PdhCmdT.strobe) (g := ⟨0, 26, by omega⟩)
    (.inr (show 0 + 26 ≤ 30 by omega)) v w

/-- The effect of a command does not depend on the strobe. -/
theorem execRegs_strobe (v : BitVec 1) (w : BitVec 32) (r : Regs) :
    execRegs (PdhCmdT.strobe.set v w) r = execRegs w r := by
  simp only [execRegs, execPid, execNco, execFir, pidCoeffSelectW, pidCoeffSelectCode,
    ncoCoeffSelectW, firUpdateSelW, firUpdateSelCode, cmdW_strobe, dataW_strobe]

/-- Strobed commands start with a low strobe. -/
theorem strobeBit_strobed (cmds : List (BitVec 32)) :
    strobeBit ((cmds.flatMap strobed).getD 0 0#32) = false := by
  cases cmds with
  | nil => rfl
  | cons c cmds => exact strobeBit_strobe 0#1 c

/-- Strobed commands rise once each, in order. -/
theorem risingWords_strobed (cmds : List (BitVec 32)) :
    risingWords (cmds.flatMap strobed) = cmds.map (PdhCmdT.strobe.set 1#1) := by
  induction cmds with
  | nil => rfl
  | cons c cmds ih =>
      have hlow := strobeBit_strobe 0#1 c
      have hhigh := strobeBit_strobe 1#1 c
      have hnext := strobeBit_strobed cmds
      rw [List.flatMap_cons, List.map_cons, ← ih, strobed, List.cons_append, List.cons_append,
        List.nil_append, risingWords_cons fun _ => hlow,
        risingWords_cons fun h => absurd (hnext.symm.trans h) Bool.false_ne_true, hlow, hhigh]
      rfl

/-- Strobing changes no effect. -/
theorem after_strobed (cmds : List (BitVec 32)) (r : Regs) (k : ℕ) :
    after execRegs (cmds.map (PdhCmdT.strobe.set 1#1)) r k = after execRegs cmds r k :=
  after_map (execRegs_strobe 1#1) cmds r k

/-- Strobed commands do not reset unless a command does. -/
theorem rstBit_of_mem_strobed {cmds : List (BitVec 32)} (h : ∀ c ∈ cmds, rstBit c = false) :
    ∀ w ∈ cmds.flatMap strobed, rstBit w = false := by
  intro w hw
  rcases List.mem_flatMap.mp hw with ⟨c, hc, hw⟩
  rcases List.mem_pair.mp hw with rfl | rfl
  · rw [rstBit_strobe, h c hc]
  · rw [rstBit_strobe, h c hc]

/-! ## PID writes -/

/-- The effect of a PID write on the registers. -/
def writePid (sel : PidCoeffSelE) (payload : BitVec 16) (r : Regs) : Regs :=
  match sel with
  | .kp => { r with kpR := payload }
  | .kd => { r with kdR := payload }
  | .ki => { r with kiR := payload }
  | .dec => { r with decR := payload.setWidth 14 }
  | .sp => { r with spR := payload.setWidth 14 }
  | .alpha => { r with alphaR := payload.setWidth 4 }
  | .sat => { r with satwidthR := payload.setWidth 5 }
  | .en => { r with pidEnableR := payload.getLsbD 0 }
  | .gain => { r with gainR := payload }
  | .bias => { r with biasR := -payload.setWidth 14 }
  | .egain => { r with egainR := payload }

/-- The low bits of the data of a word with the given payload. -/
theorem dataW_of_payload {w : BitVec 32} {payload : BitVec 16}
    (h : PdhCmdT.payload.get w = payload) {len : ℕ} (hlen : len ≤ 16) :
    (dataW w).extractLsb' 0 len = payload.setWidth len := by
  rw [dataW_extractLsb' w (by omega), ← h]
  apply BitVec.eq_of_getLsbD_eq
  intro i hi
  simp [BitField.get, PdhCmdT.payload, hi, show i < 16 by omega]

theorem getLsbD_zero_of_payload {w : BitVec 32} {payload : BitVec 16}
    (h : PdhCmdT.payload.get w = payload) : (dataW w).getLsbD 0 = payload.getLsbD 0 := by
  have hbit := congrArg (BitVec.getLsbD · 0) (dataW_of_payload h (show 1 ≤ 16 by omega))
  simpa using hbit

section SetPid

variable (sel : PidCoeffSelE) (payload : BitVec 16)

/-- The payload of a controller write. -/
theorem payload_setPidWord : PdhCmdT.payload.get (setPidWord sel payload) = payload := by
  have hsel := BitField.get_set_of_disjoint (f := PdhCmdT.coeffSel) (g := PdhCmdT.payload)
    (.inr (Nat.le_refl 16)) sel.code (PdhCmdT.payload.set payload (cmdWord .setPidCoeffs))
  exact hsel.trans (BitField.get_set PdhCmdT.payload payload _)

/-- A controller write does not reset. -/
theorem rstBit_setPidWord : rstBit (setPidWord sel payload) = false := by
  rw [setPidWord, rstBit_set (Nat.le_of_ble_eq_true rfl), rstBit_set (Nat.le_of_ble_eq_true rfl),
    rstBit_cmdWord]

/-- The command of a controller write. -/
theorem cmdW_setPidWord : cmdW (setPidWord sel payload) = .setPidCoeffs := by
  rw [setPidWord, cmdW_set (Nat.le_of_ble_eq_true rfl), cmdW_set (Nat.le_of_ble_eq_true rfl),
    cmdW_cmdWord]
  rfl

/-- The core selects the register that the server named. -/
theorem pidCoeffSelectW_setPidWord :
    pidCoeffSelectW (setPidWord sel payload) = PidCoeffSel.ofCode sel.code := by
  have hcode : pidCoeffSelectCode (setPidWord sel payload) = sel.code := by
    rw [pidCoeffSelectCode, dataW_extractLsb' _ (by omega)]
    exact BitField.get_set PdhCmdT.coeffSel sel.code _
  rw [pidCoeffSelectW, hcode]

/-- The effect of a PID write. -/
theorem execRegs_setPidWord (r : Regs) :
    execRegs (setPidWord sel payload) r = writePid sel payload r := by
  have hpayload := payload_setPidWord sel payload
  rw [execRegs, cmdW_setPidWord]
  simp only [pidCoeffSelectW_setPidWord]
  cases sel <;>
    simp only [PidCoeffSelE.code, PidCoeffSel.ofCode, execPid, writePid,
      dataW_of_payload hpayload, getLsbD_zero_of_payload hpayload, BitVec.setWidth_eq,
      Nat.reduceLeDiff]

end SetPid

/-! ## Filter writes -/

/-- The effect of a filter write on the registers. -/
def writeFir (sel : FirUpdateSelE) (payload : BitVec 16) (r : Regs) : Regs :=
  match sel with
  | .addr => { r with tapAddrR := payload.setWidth 5 }
  | .coeff => { r with tapCoeffR := payload }
  | .inputSel => { r with firInputSelR := payload.setWidth 3 }
  | .memWriteEn => { r with tapMemWriteEnR := payload.getLsbD 0 }
  | .chainWriteEn => { r with tapChainWriteEnR := payload.getLsbD 0 }

section SetFir

variable (sel : FirUpdateSelE) (payload : BitVec 16)

/-- The payload of a filter write. -/
theorem payload_setFirWord : PdhCmdT.payload.get (setFirWord sel payload) = payload :=
  BitField.get_set PdhCmdT.payload payload _

theorem rstBit_setFirWord : rstBit (setFirWord sel payload) = false := by
  rw [setFirWord, rstBit_set (Nat.le_of_ble_eq_true rfl), rstBit_set (Nat.le_of_ble_eq_true rfl),
    rstBit_cmdWord]

theorem cmdW_setFirWord : cmdW (setFirWord sel payload) = .setFir := by
  rw [setFirWord, cmdW_set (Nat.le_of_ble_eq_true rfl), cmdW_set (Nat.le_of_ble_eq_true rfl),
    cmdW_cmdWord]
  rfl

/-- The core selects the register that the server named. -/
theorem firUpdateSelCode_setFirWord : firUpdateSelCode (setFirWord sel payload) = sel.code := by
  have hpayload := BitField.get_set_of_disjoint (f := PdhCmdT.payload) (g := PdhCmdT.updateSel)
    (.inl (Nat.le_refl 16)) payload (PdhCmdT.updateSel.set sel.code (cmdWord .setFir))
  rw [firUpdateSelCode, dataW_extractLsb' _ (by omega)]
  exact hpayload.trans (BitField.get_set PdhCmdT.updateSel sel.code _)

/-- The effect of a filter write. -/
theorem execRegs_setFirWord (r : Regs) :
    execRegs (setFirWord sel payload) r = writeFir sel payload r := by
  have hpayload := payload_setFirWord sel payload
  rw [execRegs, cmdW_setFirWord]
  simp only [firUpdateSelW, firUpdateSelCode_setFirWord]
  cases sel <;>
    simp only [FirUpdateSelE.code, execFir, writeFir, dataW_of_payload hpayload,
      getLsbD_zero_of_payload hpayload, BitVec.setWidth_eq, Nat.reduceLeDiff]

end SetFir

end Requests
end PoundDreverHall
