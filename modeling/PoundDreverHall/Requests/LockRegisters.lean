import PoundDreverHall.Requests.OpenFiles
import PoundDreverHall.Requests.PidSwitchOn
import PoundDreverHall.Requests.SweepRouting

/-!
# Requests - the registers of a lock

A lock rests on the signal that the controller is given, on its bias and on its input gain.  This
file shows what the three requests of an autolock do to these registers: a ramp keeps all three, a
routing request that returns 0 writes the first, and a request for the controller the other two.

Main results:

- Theorem {lit}`sweepRamp_keeps`, theorem {lit}`configIo_writes` and theorem {lit}`setPid_writes`.
-/

namespace PoundDreverHall
namespace Requests

open Device Device.Program Server PdhCore

namespace Board

/-- `pid_sel_r`. -/
def pidSel (b : Board) : BitVec 3 :=
  b.config.regs.pidSelR

/-- `bias_r` and `egain_r`. -/
def scaling (b : Board) : BitVec 14 × BitVec 16 :=
  (b.config.regs.biasR, b.config.regs.egainR)

end Board

/-! ## Words -/

/-- The board after a trace has been sent its words. -/
theorem follows_board_sent {tr : Trace} {b b' : Board} (h : Follows board b tr b') :
    b' = (shown Call.sent tr).foldl (fun b w => b.send w) b := by
  induction h with
  | nil b => rfl
  | @cons b b₁ b₂ o r tr first rest ih =>
      have hshown : shown Call.sent (⟨o, r⟩ :: tr) = o.sent ++ shown Call.sent tr :=
        List.flatMap_cons
      have hsent : b₁ = o.sent.foldl (fun b w => b.send w) b := by
        cases o with
        | pdhGetCallback => exact first.1
        | _ => exact first
      rw [ih, hshown, List.foldl_append, ← hsent]

/-- Strobed commands are executed in order. -/
theorem regs_foldl_strobed {cmds : List (BitVec 32)} (hrst : ∀ c ∈ cmds, rstBit c = false)
    (b : Board) :
    ((cmds.flatMap strobed).foldl (fun b w => b.send w) b).config.regs =
      cmds.foldl (fun r w => execRegs w r) b.config.regs := by
  induction cmds generalizing b with
  | nil => rfl
  | cons c cmds ih =>
      have hc := hrst c List.mem_cons_self
      have hpair : (strobed c).foldl (fun b w => b.send w) b =
          { config := exec (PdhCmdT.strobe.set 1#1 c) b.config
            latched := PdhCmdT.strobe.set 1#1 c
            bus := PdhCmdT.strobe.set 1#1 c } := by
        rw [strobed, List.foldl_cons, List.foldl_cons, List.foldl_nil, send_low hc]
        exact send_high hc (strobeBit_strobe 0#1 c)
      rw [List.flatMap_cons, List.foldl_append, hpair,
        ih fun c' hc' => hrst c' (List.mem_cons_of_mem c hc'), List.foldl_cons, exec_regs,
        execRegs_strobe]

/-- Only a write to the controller changes its bias and its input gain. -/
theorem scaling_execRegs {w : BitVec 32} (hcmd : cmdW w ≠ .setPidCoeffs) (r : Regs) :
    ((execRegs w r).biasR, (execRegs w r).egainR) = (r.biasR, r.egainR) := by
  unfold execRegs
  cases h : cmdW w with
  | setPidCoeffs => exact absurd h hcmd
  | setNco => cases hsel : ncoCoeffSelectW w <;> rfl
  | setFir => cases hsel : firUpdateSelW w <;> rfl
  | setRotCoeffs => cases hsel : (dataW w).getLsbD 16 <;> rfl
  | _ => rfl

theorem scaling_send {w : BitVec 32} (hrst : rstBit w = false) (hcmd : cmdW w ≠ .setPidCoeffs)
    (b : Board) : (b.send w).scaling = b.scaling := by
  rw [Board.send, hrst, if_neg Bool.false_ne_true]
  split_ifs
  · rw [Board.scaling, exec_regs]
    exact scaling_execRegs hcmd b.config.regs
  · rfl

theorem scaling_foldl_send {words : List (BitVec 32)}
    (h : ∀ w ∈ words, rstBit w = false ∧ cmdW w ≠ .setPidCoeffs) (b : Board) :
    (words.foldl (fun b w => b.send w) b).scaling = b.scaling := by
  induction words generalizing b with
  | nil => rfl
  | cons w words ih =>
      have hw := h w List.mem_cons_self
      rw [List.foldl_cons, ih fun w' hw' => h w' (List.mem_cons_of_mem w hw')]
      exact scaling_send hw.1 hw.2 b

/-! ## The three requests -/

section Requests

variable {tr : Trace} {b b' : Board}

/-- A ramp keeps all three registers. -/
theorem sweepRamp_keeps {F : Type} [MixedPrecision F] {ctx : CmdCtx F} {r : Reply F}
    (hrun : Performs (cmdSweepRamp ctx) tr r) (hfollows : Follows board b tr b') :
    b'.pidSel = b.pidSel ∧ b'.scaling = b.scaling := by
  constructor
  · have hrouting : b'.routing.2.2 = b.routing.2.2 := by
      rcases performs_cmdSweepRamp hrun hfollows with ⟨-, h⟩ | ⟨-, h⟩ | ⟨-, -, h⟩
      · rw [h]
      · rw [h]
      · rw [h]
    exact hrouting
  · rw [follows_board_sent hfollows]
    refine scaling_foldl_send (onlySends_sweepRamp ctx ?_ ?_ ?_ tr r hrun).1 b
    · intro v sel
      rw [rstBit_strobe, cmdW_strobe, checkSignedWord, cmdW_set (Nat.le_of_ble_eq_true rfl)]
      exact ⟨rstBit_checkSignedWord sel, by decide⟩
    · intro v sel code
      rw [rstBit_strobe, cmdW_strobe]
      refine ⟨rstBit_setDacWord sel code, ?_⟩
      rw [setDacWord, cmdW_set (Nat.le_of_ble_eq_true rfl), cmdW_set (Nat.le_of_ble_eq_true rfl)]
      decide
    · intro v dac1 dac2 pid
      rw [rstBit_strobe, cmdW_strobe]
      refine ⟨rstBit_configIoWord dac1 dac2 pid 0#32, ?_⟩
      rw [configIoWord, cmdW_set (Nat.le_of_ble_eq_true rfl), cmdW_set (Nat.le_of_ble_eq_true rfl),
        cmdW_set (Nat.le_of_ble_eq_true rfl)]
      decide

theorem cmd_configIoWord (dac1 dac2 pid : BitVec 3) (cmd : BitVec 32) :
    PdhCmdT.cmd.get (configIoWord dac1 dac2 pid cmd) = PdhCmdE.configIo.code := by
  simp (disch := decide) only [configIoWord, BitField.get_set_of_disjoint, BitField.get_set]

/-- A routing request that returns 0 gives the controller its signal. -/
theorem configIo_writes {F : Type} {stack : BitVec 32} {ctx : CmdCtx F} {r : Reply F}
    (hrun : Performs (cmdConfigIo stack ctx) tr r) (hfollows : Follows board b tr b')
    (hok : r.returnCode = 0) :
    b'.pidSel = (ctx.uintArgs 2).setWidth 3 ∧ b'.scaling = b.scaling := by
  dsimp only [cmdConfigIo] at hrun
  by_cases hargs : ioArgsCode ctx ≠ .ok
  · rw [if_pos hargs] at hrun
    rcases performs_pure.mp hrun with ⟨-, rfl⟩
    cases hcode : ioArgsCode ctx with
    | ok => exact absurd hcode hargs
    | _ =>
        rw [hcode] at hok
        cases hok
  · rw [if_neg hargs] at hrun
    rcases performs_bind.mp hrun with ⟨tr₁, cb, tr₂, hexecute, hrest, rfl⟩
    rcases performs_pure.mp hrest with ⟨rfl, rfl⟩
    rw [List.append_nil] at hfollows
    have hecho := ((validateCb_eq_zero_iff Nat.one_ne_zero).mp hok).1
    rw [cmd_configIoWord] at hecho
    by_cases hrst : stack.getLsbD 31 = true
    · -- such a word resets the registers, and the callback of an idle core is 0
      rcases follows_execute hexecute hfollows with ⟨-, hboard, d, o, -, -, rfl⟩
      have hreset : b'.latched = 0#32 := by
        rw [hboard, Board.send, rstBit_strobe, rstBit_configIoWord, hrst, if_pos rfl]
      rw [hreset] at hecho
      exact absurd hecho (by rw [show nextCallbackW 0#32 _ d o = 0#32 from rfl]; decide)
    · have hclear : rstBit (configIoWord ((ctx.uintArgs 0).setWidth 3)
          ((ctx.uintArgs 1).setWidth 3) ((ctx.uintArgs 2).setWidth 3) stack) = false := by
        rw [rstBit_configIoWord]
        exact Bool.eq_false_iff.mpr hrst
      rcases performs_execute hclear hexecute hfollows with ⟨-, hconfig, -⟩
      have hregs := regs_of_execute (decode_configIo _ _ _ _) hconfig
      constructor
      · rw [Board.pidSel, hregs]
        rfl
      · rw [Board.scaling, hregs]
        rfl

/-- A request for the controller gives it its bias and its input gain. -/
theorem setPid_writes {F : Type} [SinglePrecision F] {ctx : CmdCtx F} {r : Reply F}
    (hrun : Performs (cmdSetPid ctx) tr r) (hfollows : Follows board b tr b') :
    b'.pidSel = b.pidSel ∧
      b'.scaling = (-(PidRequest.ofCtx ctx).biasI.setWidth 14, (PidRequest.ofCtx ctx).egainI) := by
  have hsent : shown Call.sent tr = _ := cmdSetPid_emits ctx tr r hrun
  have hrst : ∀ c ∈ pidOrder.map (pidWrite (.ofCtx ctx)), rstBit c = false := by
    intro c hc
    rcases List.mem_map.mp hc with ⟨sel, -, rfl⟩
    exact rstBit_setPidWord sel _
  have hregs := regs_foldl_strobed hrst b
  rw [← hsent, ← follows_board_sent hfollows] at hregs
  constructor
  · have hkeeps : ∀ (sels : List PidCoeffSelE) (r : Regs),
        ((sels.map (pidWrite (.ofCtx ctx))).foldl (fun r w => execRegs w r) r).pidSelR =
          r.pidSelR := by
      intro sels
      induction sels with
      | nil => exact fun _ => rfl
      | cons sel sels ih =>
          intro r
          rw [List.map_cons, List.foldl_cons, ih, pidWrite, execRegs_setPidWord]
          cases sel <;> rfl
    rw [Board.pidSel, hregs, hkeeps]
    rfl
  · have hholds : ∀ sel, Holds (.ofCtx ctx) b'.config.regs sel := by
      intro sel
      rw [hregs, holds_foldl]
      left
      cases sel <;> decide
    exact Prod.ext (hholds .bias) (hholds .egain)

end Requests

end Requests
end PoundDreverHall
