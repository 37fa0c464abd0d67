import PoundDreverHall.Decoder.CommandStream

/-!
# Command decoder - refinement of an atomic register file

Seen from software, a strobed command is one atomic update of a register file.
This file states that register file with the meaning of every command, and
shows that the clocked decoder, which re-executes the latched command on every
edge and writes the DAC registers on the other one, implements it.

Main results:

- Definition {lit}`exec`: the one-shot meaning of a command.
- Theorem {lit}`step_config`: a clock period executes the latched command.
- Theorem {lit}`exec_exec`: executing a command twice is executing it once.
- Theorem {lit}`decoder_refines`: every strobed word is latched once and in
  order, the registers are the fold of the latched commands, and a command that
  echoes configuration reads back its own update.
-/

namespace PoundDreverHall
namespace PdhCore

open Clocked

/-! ## The register file -/

/-- The configuration that software sees. -/
structure Config where
  regs : Regs
  dac1DatR : BitVec 14
  dac2DatR : BitVec 14
deriving DecidableEq, Repr

/-- The configuration after reset. -/
def Config.reset : Config where
  regs := Regs.reset
  dac1DatR := DacRegs.reset.dac1DatR
  dac2DatR := DacRegs.reset.dac2DatR

/-- Meaning of a PID write: it sets the selected register. -/
def execPid (sel : PidCoeffSel) (data : BitVec 26) (r : Regs) : Regs :=
  match sel with
  | .kp => { r with kpR := data.extractLsb' 0 16 }
  | .kd => { r with kdR := data.extractLsb' 0 16 }
  | .ki => { r with kiR := data.extractLsb' 0 16 }
  | .dec => { r with decR := data.extractLsb' 0 14 }
  | .sp => { r with spR := data.extractLsb' 0 14 }
  | .alpha => { r with alphaR := data.extractLsb' 0 4 }
  | .sat => { r with satwidthR := data.extractLsb' 0 5 }
  | .en => { r with pidEnableR := data.getLsbD 0 }
  | .gain => { r with gainR := data.extractLsb' 0 16 }
  | .bias => { r with biasR := -data.extractLsb' 0 14 }
  | .egain => { r with egainR := data.extractLsb' 0 16 }
  | .unassigned => r

/-- Meaning of an oscillator write. -/
def execNco (sel : NcoSel) (data : BitVec 26) (r : Regs) : Regs :=
  match sel with
  | .stride => { r with ncoStrideR := data.extractLsb' 0 12 }
  | .shift => { r with ncoShiftR := data.extractLsb' 0 12 }
  | .inv => { r with ncoInvR := data.getLsbD 0 }
  | .sub => { r with ncoSubR := data.getLsbD 0 }
  | .en => { r with ncoEnR := data.getLsbD 0 }
  | .unassigned => r

/-- Meaning of a filter write. -/
def execFir (sel : FirUpdateSel) (data : BitVec 26) (r : Regs) : Regs :=
  match sel with
  | .addr => { r with tapAddrR := data.extractLsb' 0 5 }
  | .coeff => { r with tapCoeffR := data.extractLsb' 0 16 }
  | .inputSel => { r with firInputSelR := data.extractLsb' 0 3 }
  | .memWriteEn => { r with tapMemWriteEnR := data.getLsbD 0 }
  | .chainWriteEn => { r with tapChainWriteEnR := data.getLsbD 0 }
  | .unassigned => r

/-- The one-shot meaning of a command on the registers of the rising edge. -/
def execRegs (w : BitVec 32) (r : Regs) : Regs :=
  match cmdW w with
  | .setLed => { r with ledR := (dataW w).extractLsb' 0 8 }
  | .setRotCoeffs =>
      if (dataW w).getLsbD 16 then { r with sinThetaR := (dataW w).extractLsb' 0 16 }
      else { r with cosThetaR := (dataW w).extractLsb' 0 16 }
  | .commitRotCoeffs => { r with rotSinThetaR := r.sinThetaR, rotCosThetaR := r.cosThetaR }
  | .getFrame =>
      { r with
        dmaDecimationCodeR := (dataW w).extractLsb' 0 22
        frameCodeR := (dataW w).extractLsb' 22 4 }
  | .setPidCoeffs => execPid (pidCoeffSelectW w) (dataW w) r
  | .setNco => execNco (ncoCoeffSelectW w) (dataW w) r
  | .setFir => execFir (firUpdateSelW w) (dataW w) r
  | .configDemod =>
      { r with
        demodRefSelR := (dataW w).getLsbD 0
        demodInSelR := (dataW w).extractLsb' 1 3
        demodLpfAlphaR := (dataW w).extractLsb' 4 4 }
  | .configIo =>
      { r with
        dac1DatSelR := (dataW w).extractLsb' 0 3
        dac2DatSelR := (dataW w).extractLsb' 3 3
        pidSelR := (dataW w).extractLsb' 6 3 }
  | .idle | .setDac | .getAdc | .checkSigned | .unassigned => r

/-- The one-shot meaning of a command. -/
def exec (w : BitVec 32) (c : Config) : Config :=
  match cmdW w with
  | .setDac =>
      if (dataW w).getLsbD 14 then { c with dac2DatR := (dataW w).extractLsb' 0 14 }
      else { c with dac1DatR := (dataW w).extractLsb' 0 14 }
  | _ => { c with regs := execRegs w c.regs }

/-- The fold over a list of commands, from reset. -/
def execAll (ws : List (BitVec 32)) : Config :=
  ws.foldl (fun c w => exec w c) Config.reset

/-! ## One clock period -/

/-- The configuration held by a state of the core. -/
def State.config (s : State) : Config where
  regs := s.regs
  dac1DatR := s.dac.dac1DatR
  dac2DatR := s.dac.dac2DatR

/-- The register logic of the source is the meaning of the command. -/
theorem next_eq_execRegs (w : BitVec 32) (r : Regs) : Regs.next w r = execRegs w r := by
  unfold Regs.next execRegs
  cases hcmd : cmdW w with
  | setPidCoeffs => cases hsel : pidCoeffSelectW w <;> simp [execPid]
  | setNco => cases hsel : ncoCoeffSelectW w <;> simp [execNco]
  | setFir => cases hsel : firUpdateSelW w <;> simp [execFir]
  | setRotCoeffs => cases hsel : (dataW w).getLsbD 16 <;> simp
  | _ => simp

/-- A clock period outside reset executes the latched command. -/
theorem step_config (rom : Nco.Rom) {i : Input} {s : State} (hs : Live s)
    (hi : i.rstI = false) : (step rom i s).config = exec s.latch.axiFromPsR s.config := by
  rw [step_live rom hs hi, State.config, next_eq_execRegs]
  unfold exec execRegs DacRegs.next State.config
  cases hcmd : cmdW s.latch.axiFromPsR with
  | setDac => cases hsel : (dataW s.latch.axiFromPsR).getLsbD 14 <;> simp
  | _ => simp

/-- Executing a register write twice is executing it once. -/
theorem execRegs_execRegs (w : BitVec 32) (r : Regs) :
    execRegs w (execRegs w r) = execRegs w r := by
  unfold execRegs
  cases hcmd : cmdW w with
  | setPidCoeffs => cases hsel : pidCoeffSelectW w <;> rfl
  | setNco => cases hsel : ncoCoeffSelectW w <;> rfl
  | setFir => cases hsel : firUpdateSelW w <;> rfl
  | setRotCoeffs => cases hsel : (dataW w).getLsbD 16 <;> rfl
  | _ => rfl

/-- Executing a command twice is executing it once. -/
theorem exec_exec (w : BitVec 32) (c : Config) : exec w (exec w c) = exec w c := by
  unfold exec
  cases hcmd : cmdW w with
  | setDac => cases hsel : (dataW w).getLsbD 14 <;> rfl
  | _ => simp [execRegs_execRegs]

/-! ## Echoes -/

/-- The callback of the command shows configuration registers only. -/
def EchoesConfig (w : BitVec 32) : Prop :=
  ∀ (r : Regs) (d : DacRegs) (o o' : Observed),
    nextCallbackW w r d o = nextCallbackW w r d o'

/-- Reads of the configuration: every command but the reads of the converters, of
the rotated signals and of the frame status, and the register reads of
{lit}`CMD_CHECK_SIGNED` that select a configuration register. -/
theorem echoesConfig_of_cmd {w : BitVec 32}
    (h : cmdW w ∉ [.getAdc, .commitRotCoeffs, .getFrame, .checkSigned] ∨
      cmdW w = .checkSigned ∧ w.extractLsb' 0 5 ∉ [0#5, 1#5, 6#5, 7#5, 8#5, 9#5]) :
    EchoesConfig w := by
  intro r d o o'
  unfold nextCallbackW
  rcases h with hcmd | ⟨hcmd, hsel⟩
  · cases hw : cmdW w <;> simp_all
  · have hpayload : csPayloadW (w.extractLsb' 0 5) r o = csPayloadW (w.extractLsb' 0 5) r o' := by
      unfold csPayloadW
      split <;> simp_all
    simp [hcmd, hpayload]

/-- The echo of a command by a configuration. -/
def echo (w : BitVec 32) (c : Config) : BitVec 32 :=
  nextCallbackW w c.regs
    { dacSelR := false, dac1DatR := c.dac1DatR, dac2DatR := c.dac2DatR }
    { adcDatAI := 0#14, adcDatBI := 0#14, adcDatA16sR := 0#16, adcDatB16sR := 0#16
      iFeedR := 0#16, qFeedR := 0#16, demodLpfR := 0#16, dmaReady3ff := false }

/-- The posted callback is the echo, once both groups of registers have been
updated. -/
theorem nextCallbackW_eq_echo {w : BitVec 32} (hw : EchoesConfig w) {r : Regs} {d : DacRegs}
    (o : Observed) {c : Config} (hr : r = c.regs) (h1 : d.dac1DatR = c.dac1DatR)
    (h2 : d.dac2DatR = c.dac2DatR) : nextCallbackW w r d o = echo w c := by
  rw [echo, hw r d o, hr]
  unfold nextCallbackW
  rw [h1, h2]

/-! ## Runs -/

section Runs

variable (rom : Nco.Rom) (p : Path) {ins : ℕ → Input} (hins : ∀ n, (ins n).rstI = false)

include hins

/-- The latch holds the last word loaded. -/
theorem axiFromPsR_run (n : ℕ) :
    (run (step rom) (afterReset p) ins n).latch.axiFromPsR =
      (loads rom p ins n).getLastD 0#32 :=
  latch_eq_getLastD (a := fun n => (run (step rom) (afterReset p) ins n).latch.axiFromPsR)
    (axiFromPsR_succ rom p hins) n

/-- One edge after each latch the configuration is the fold of the commands
latched so far. -/
theorem config_run (n : ℕ) :
    (run (step rom) (afterReset p) ins (n + 1)).config = execAll (loads rom p ins n) := by
  have hlive := run_live rom (live_afterReset p) hins
  have hfold := held_eq_foldl exec_exec
    (a := fun n => (run (step rom) (afterReset p) ins n).latch.axiFromPsR)
    (c := fun n => (run (step rom) (afterReset p) ins n).config)
    (axiFromPsR_succ rom p hins)
    (fun n => by rw [run_succ, step_config rom (hlive n) (hins n)]) n
  -- the word in the latch after reset is `CMD_IDLE`
  have hidle : exec 0#32 Config.reset = Config.reset := by decide
  exact hfold.trans (congrArg (fun c => (loads rom p ins n).foldl (fun c w => exec w c) c) hidle)

omit hins in
/-- Without a strobe edge nothing is loaded. -/
theorem loads_eq_of_quiet {m n : ℕ} (hmn : m ≤ n)
    (hquiet : ∀ k, m ≤ k → k < n →
      (run (step rom) (afterReset p) ins k).latch.strobeEdgeW = false) :
    loads rom p ins n = loads rom p ins m := by
  induction n, hmn using Nat.le_induction with
  | base => rfl
  | succ n hmn ih =>
      have hnone := hquiet n hmn (Nat.lt_succ_self n)
      rw [loads, loaded_succ, load, hnone]
      simpa [loads] using ih fun k hk hkn => hquiet k hk (Nat.lt_succ_of_lt hkn)

/-- While a command stays the last one latched, the core posts its callback on
the updated registers. -/
theorem axiToPsO_run {w : BitVec 32} (hw : EchoesConfig w) {m n : ℕ}
    (hlatched : (run (step rom) (afterReset p) ins m).latch.axiFromPsR = w) (hmn : m + 2 ≤ n)
    (hquiet : ∀ k, m ≤ k → k < n →
      (run (step rom) (afterReset p) ins k).latch.strobeEdgeW = false) :
    axiToPsO (run (step rom) (afterReset p) ins n) = echo w (execAll (loads rom p ins n)) := by
  obtain ⟨d, rfl⟩ := Nat.exists_eq_add_of_le' hmn
  -- the configuration before and after the edge that posts the callback
  have hloads : ∀ j, m ≤ j → j ≤ d + (m + 2) → loads rom p ins j = loads rom p ins m :=
    fun j hj hjn => loads_eq_of_quiet rom p hj fun k hk hkj => hquiet k hk (by omega)
  have hconfig := config_run rom p hins (d + m)
  have hconfig' := config_run rom p hins (d + (m + 1))
  rw [hloads _ (by omega) (by omega)] at hconfig hconfig'
  have hlive := run_live rom (live_afterReset p) hins (d + (m + 1))
  have hword : (run (step rom) (afterReset p) ins (d + (m + 1))).latch.axiFromPsR = w := by
    rw [axiFromPsR_run rom p hins, hloads _ (by omega) (by omega), ← axiFromPsR_run rom p hins,
      hlatched]
  rw [run_succ, step_live rom hlive (hins _)] at hconfig'
  rw [show d + (m + 2) = d + (m + 1) + 1 by omega, axiToPsO, run_succ,
    step_live rom hlive (hins _), hword]
  rw [hword] at hconfig'
  refine nextCallbackW_eq_echo hw _ ?_ ?_ ?_
  · rw [hloads _ (by omega) (by omega), ← hconfig]
    rfl
  · rw [hloads _ (by omega) (by omega), ← hconfig']
    rfl
  · rw [hloads _ (by omega) (by omega), ← hconfig']
    rfl

end Runs

/-! ## Refinement -/

/-- The decoder implements the register file on a stream of words, each held
for one or more clock periods. -/
structure RefinesRegisterFile (rom : Nco.Rom) (p : Path) (ins : ℕ → Input)
    (words : ℕ → BitVec 32) (idx : ℕ → ℕ) : Prop where
  /-- The latch holds the last word loaded. -/
  latch_eq : ∀ n, (run (step rom) (afterReset p) ins n).latch.axiFromPsR =
    (loads rom p ins n).getLastD 0#32
  /-- The words loaded are exactly the words at which the strobe rises. -/
  loads_eq : ∀ n, loads rom p ins (n + 4) = risen strobeBit words (idx n + 1)
  /-- From one edge after each latch on, the configuration is the fold of the
  commands latched so far. -/
  config_eq : ∀ n, (run (step rom) (afterReset p) ins (n + 1)).config =
    execAll (loads rom p ins n)
  /-- From the sixth edge after its strobe-high word appears, a command that
  echoes configuration and stays the last one latched reads back its update. -/
  echo_eq : ∀ k n, rise strobeBit words (idx k) = true → (∀ j < k, idx j ≠ idx k) →
    EchoesConfig (words (idx k)) → k + 6 ≤ n →
    (∀ j, k + 4 ≤ j → j < n →
      (run (step rom) (afterReset p) ins j).latch.strobeEdgeW = false) →
    axiToPsO (run (step rom) (afterReset p) ins n) =
      echo (words (idx k)) (execAll (loads rom p ins n))

/-- A word rises in the samples when it first appears. -/
theorem rise_first {words : ℕ → BitVec 32} {idx : ℕ → ℕ} (hidx : Held idx) {k : ℕ}
    (hfirst : ∀ j < k, idx j ≠ idx k) :
    rise strobeBit (fun n => words (idx n)) k = rise strobeBit words (idx k) := by
  cases k with
  | zero => simp [rise, levelBefore, hidx.zero]
  | succ k =>
      rcases hidx.succ k with hsame | hnext
      · exact absurd hsame.symm (hfirst k (Nat.lt_succ_self k))
      · simp [rise, levelBefore, hnext]

/-- The clocked command decoder refines the atomic register file. -/
theorem decoder_refines (rom : Nco.Rom) (p : Path) (words : ℕ → BitVec 32) (idx : ℕ → ℕ)
    (hidx : Held idx) (ins : ℕ → Input) (hwords : ∀ n, (ins n).axiFromPsI = words (idx n))
    (hrst : ∀ j, rstBit (words j) = false) : RefinesRegisterFile rom p ins words idx := by
  have hins : ∀ n, (ins n).rstI = false := fun n => by rw [Input.rstI, hwords, hrst]
  have hbus : busWords ins = fun n => words (idx n) := funext hwords
  refine ⟨axiFromPsR_run rom p hins, ?_, config_run rom p hins, ?_⟩
  · intro n
    rw [loads_run rom p hins (n + 1), hbus, risen_held hidx]
  · intro k n hrise hfirst hecho hkn hquiet
    have hedge : (run (step rom) (afterReset p) ins (k + 3)).latch.strobeEdgeW = true := by
      rw [strobeEdgeW_run rom p hins, rise_delayed (busWords ins) rfl, hbus,
        rise_first hidx hfirst, hrise]
    have hlatched : (run (step rom) (afterReset p) ins (k + 4)).latch.axiFromPsR =
        words (idx k) := by
      rw [axiFromPsR_succ rom p hins (k + 3), load, if_pos hedge, axi3ffR_run rom p hins,
        delayed_add, hbus]
      rfl
    exact axiToPsO_run rom p hins hecho hlatched hkn hquiet

/-- Two words, {lit}`CMD_SET_LED` with the strobe low and then high. -/
def ledWords (n : ℕ) : BitVec 32 :=
  if n = 0 then 0x040000AA#32 else 0x440000AA#32

/-- The decoder on the strobe of an LED command, each word held for one period. -/
theorem decoder_refines_led :
    RefinesRegisterFile (fun _ => 0#16) Path.reset (fun n => ⟨ledWords n, 0#14, 0#14, true, true⟩)
      ledWords id :=
  decoder_refines (fun _ => 0#16) Path.reset ledWords id ⟨rfl, fun _ => .inr rfl⟩ _
    (fun _ => rfl) (fun j => by unfold ledWords; split <;> decide)

end PdhCore
end PoundDreverHall
