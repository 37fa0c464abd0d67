import PoundDreverHall.Clocked.Signal
import PoundDreverHall.Rtl.PdhCore

/-!
# Command decoder - from the bus to the latch

This file gives the behaviour of `pdh_core` outside reset: one equation for a
clock period, and the contents of the synchroniser and of the command latch as
functions of the words sampled on {lit}`axi_from_ps_i`.

Main results:

- Theorem {lit}`step_reset_drain`: one clock period under reset and two more
  lead to the reset values, from any state.
- Theorem {lit}`step_live`: one clock period outside reset.
- Theorem {lit}`strobeEdgeW_run`: the latch loads three edges after the strobe
  rises in the samples, and only then.
- Theorem {lit}`loads_run`: the words loaded are the rising words.
-/

namespace PoundDreverHall
namespace PdhCore

open Clocked

/-! ## Reset -/

/-- The state after reset.  Some registers of the signal path have no reset, so
its contents are a parameter. -/
def afterReset (p : Path) : State where
  rst := .released
  rstNe := .released
  latch := .reset
  regs := .reset
  dac := .reset
  orch := .reset
  irqR := false
  path := p
  callbackR := 0#32

/-- One clock period under reset, and the two in which the pipelines drain. -/
theorem step_reset_drain (rom : Nco.Rom) (s : State) {i₀ i₁ i₂ : Input}
    (h₀ : i₀.rstI = true) (h₁ : i₁.rstI = false) (h₂ : i₂.rstI = false) :
    step rom i₂ (step rom i₁ (step rom i₀ s)) =
      afterReset (step rom i₂ (step rom i₁ (step rom i₀ s))).path := by
  apply State.ext <;>
    simp [step, posedge, negedge, asyncReset, h₀, h₁, h₂, Latch.step, Orchestrator.step,
      nextIrqR, ResetSync.asserted, afterReset, ResetSync.released]

/-! ## Edges outside reset -/

/-- Both reset pipelines have drained. -/
def Live (s : State) : Prop :=
  s.rst = .released ∧ s.rstNe = .released

/-- One clock period outside reset. -/
theorem step_live (rom : Nco.Rom) {i : Input} {s : State} (hs : Live s) (hi : i.rstI = false) :
    step rom i s =
      { rst := .released
        rstNe := .released
        latch :=
          { axi1ffR := i.axiFromPsI
            axi2ffR := s.latch.axi1ffR
            axi3ffR := s.latch.axi2ffR
            uStrobeEdgeDetector := { prevD := strobeBit s.latch.axi3ffR }
            axiFromPsR := s.latch.nextAxiFromPsW }
        regs := Regs.next s.latch.axiFromPsR s.regs
        dac := DacRegs.next s.latch.axiFromPsR s.dac
        orch := s.orch.step false s.cmd i.dmaReadyI i.bramReadyI
        irqR := nextIrqR false s.latch s.orch
        path := s.path.step rom false i s.regs (DacRegs.next s.latch.axiFromPsR s.dac)
        callbackR :=
          nextCallbackW s.latch.axiFromPsR s.regs (DacRegs.next s.latch.axiFromPsR s.dac)
            (observed i s) } := by
  obtain ⟨hrst, hrstNe⟩ := hs
  simp [step, posedge, negedge, hi, hrst, hrstNe, ResetSync.released, Latch.step,
    PosedgeDetector.clock, State.cmd, observed]

/-- The reset pipelines stay drained along a run without reset. -/
theorem run_live (rom : Nco.Rom) {s : State} {ins : ℕ → Input} (hs : Live s)
    (hins : ∀ n, (ins n).rstI = false) (n : ℕ) : Live (run (step rom) s ins n) :=
  run_invariant Live hs (fun n h => by rw [step_live rom h (hins n)]; exact ⟨rfl, rfl⟩) n

theorem live_afterReset (p : Path) : Live (afterReset p) :=
  ⟨rfl, rfl⟩

/-! ## Synchroniser and latch -/

/-- Words sampled on {lit}`axi_from_ps_i`. -/
def busWords (ins : ℕ → Input) (n : ℕ) : BitVec 32 := (ins n).axiFromPsI

/-- The word loaded into `axi_from_ps_r` on the next edge, if there is one. -/
def load (l : Latch) : Option (BitVec 32) :=
  if l.strobeEdgeW then some l.axi3ffR else none

theorem nextAxiFromPsW_eq (l : Latch) : l.nextAxiFromPsW = (load l).getD l.axiFromPsR := by
  rw [Latch.nextAxiFromPsW, load]
  split_ifs <;> rfl

section Stream

variable (rom : Nco.Rom) (p : Path) {ins : ℕ → Input} (hins : ∀ n, (ins n).rstI = false)

include hins

/-- The three registers of the synchroniser. -/
theorem axi3ffR_run (n : ℕ) :
    (run (step rom) (afterReset p) ins n).latch.axi3ffR =
      delayed 3 0#32 (busWords ins) n := by
  have hlive := run_live rom (live_afterReset p) hins
  have h1 : ∀ n, (run (step rom) (afterReset p) ins n).latch.axi1ffR =
      delayed 1 0#32 (busWords ins) n :=
    eq_delayed_succ rfl fun n => by rw [run_succ, step_live rom (hlive n) (hins n)]; rfl
  have h2 : ∀ n, (run (step rom) (afterReset p) ins n).latch.axi2ffR =
      delayed 2 0#32 (busWords ins) n :=
    eq_delayed_succ rfl fun n => by rw [run_succ, step_live rom (hlive n) (hins n), ← h1]
  have h3 : ∀ n, (run (step rom) (afterReset p) ins n).latch.axi3ffR =
      delayed 3 0#32 (busWords ins) n :=
    eq_delayed_succ rfl fun n => by rw [run_succ, step_live rom (hlive n) (hins n), ← h2]
  exact h3 n

/-- The strobe detector remembers the level of the cycle before. -/
theorem prevD_run (n : ℕ) :
    (run (step rom) (afterReset p) ins n).latch.uStrobeEdgeDetector.prevD =
      levelBefore strobeBit (delayed 3 0#32 (busWords ins)) n := by
  cases n with
  | zero => rfl
  | succ n =>
      have hlive := run_live rom (live_afterReset p) hins n
      rw [run_succ, step_live rom hlive (hins n), levelBefore, ← axi3ffR_run rom p hins]

/-- A strobe edge is a rising strobe in the samples, three edges later. -/
theorem strobeEdgeW_run (n : ℕ) :
    (run (step rom) (afterReset p) ins n).latch.strobeEdgeW =
      rise strobeBit (delayed 3 0#32 (busWords ins)) n := by
  rw [Latch.strobeEdgeW, PosedgeDetector.q, axi3ffR_run rom p hins, prevD_run rom p hins, rise]

/-- The next value of the latch. -/
theorem axiFromPsR_succ (n : ℕ) :
    (run (step rom) (afterReset p) ins (n + 1)).latch.axiFromPsR =
      (load (run (step rom) (afterReset p) ins n).latch).getD
        (run (step rom) (afterReset p) ins n).latch.axiFromPsR := by
  have hlive := run_live rom (live_afterReset p) hins n
  rw [run_succ, step_live rom hlive (hins n), nextAxiFromPsW_eq]

end Stream

/-- The words loaded into `axi_from_ps_r` on the first {lit}`n` edges. -/
def loads (rom : Nco.Rom) (p : Path) (ins : ℕ → Input) (n : ℕ) : List (BitVec 32) :=
  loaded (fun k => load (run (step rom) (afterReset p) ins k).latch) n

/-- The words loaded are the words at which the strobe rises in the samples,
three edges later, in order. -/
theorem loads_run (rom : Nco.Rom) (p : Path) {ins : ℕ → Input}
    (hins : ∀ n, (ins n).rstI = false) (n : ℕ) :
    loads rom p ins (n + 3) = risen strobeBit (busWords ins) n := by
  rw [← risen_delayed (busWords ins) (show strobeBit 0#32 = false from rfl) 3 n, loads, loaded,
    risen]
  refine log_eq_of_forall fun k _ => ?_
  rw [load, strobeEdgeW_run rom p hins, axi3ffR_run rom p hins]
  split_ifs <;> rfl

end PdhCore
end PoundDreverHall
