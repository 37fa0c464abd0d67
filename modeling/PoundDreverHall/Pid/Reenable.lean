import PoundDreverHall.Pid.Decimation

/-!
# PID controller - enabling it again

A disabled controller keeps its settings and clears everything else, and the first
enabled edge loads new settings.  Until then the old settings are in effect: the old
decimation decides whether the counter leaves zero on that edge, and the old input gain
and setpoint only reach a register that is overwritten before it is used.

Main results:

- Theorem {lit}`step_of_cleared`: what the first enabled edge makes of a cleared state.
- Theorem {lit}`reenable_iff`: two controllers that are enabled again on the same inputs
  have the same output from the second cycle on, whatever the inputs are, if and only if
  both or neither last ran with decimation 1.
-/

namespace PoundDreverHall
namespace PidCore

open Clocked FixedPoint

/-! ## The first enabled edge -/

/-- The state after the first enabled edge, with the counter at {lit}`c`. -/
def firstState (i : Input) (c : BitVec 14) : State where
  kpR := i.kpI
  kdR := i.kdI
  kiR := i.kiI
  gainR := i.gainI
  egainR := i.egainI
  biasR := i.biasI
  spR := i.spI
  alphaR := i.alphaI
  satwidthR := nextSatwidthW i
  decimateR := if i.decimateI < 1#14 then 1#14 else i.decimateI
  cntR := c
  tick1R := true
  tick2R := false
  errorPipe1R := 0#16
  sumErrorR := 0#32
  ykR := 0#16
  pErrorR := 0#32
  dErrorR := 0#32
  iErrorR := 0#48

/-- The counter after the first enabled edge. -/
def firstCount (s : State) : BitVec 14 := if s.decimateR = 1#14 then 0#14 else 1#14

section Step

variable {i : Input} {s : State}

theorem nextCntW_of_zero (hcnt : s.cntR = 0#14) : nextCntW s = firstCount s := by
  have hlimit : s.decimateR.setWidth 32 - 1#32 ≤ (0#14).setWidth 32 ↔ s.decimateR = 1#14 := by
    bv_omega
  rw [nextCntW, hcnt, firstCount]
  simp only [hlimit]
  rfl

/-- The old settings only show in the counter and in {lit}`error_pipe1_r`. -/
theorem step_of_cleared (hs : Cleared s) (hactive : i.active = true) :
    step i s = { firstState i (firstCount s) with errorPipe1R := errorGainedW i s } := by
  have hen := (active_iff.mp hactive).2
  rw [step_active hactive, nextCntW_of_zero hs.cntR]
  simp [firstState, tick1W, sumError2W, ykW, pErrorW, dErrorW, iErrorW, hen, hs.cntR, hs.tick1R,
    hs.tick2R, hs.sumErrorR, hs.ykR, hs.pErrorR, hs.dErrorR, hs.iErrorR]

/-- The piped error is used on {lit}`tick2_r` only. -/
theorem step_errorPipe1R (htick : s.tick2R = false) (x : BitVec 16) :
    step i { s with errorPipe1R := x } = step i s := by
  have hproduct : pErrorW { s with errorPipe1R := x } = pErrorW s := by
    simp [pErrorW, htick]
  unfold step
  rw [hproduct]
  rfl

end Step

/-! ## Runs from a cleared state -/

section Runs

variable {s : State} {ins : ℕ → Input}

/-- From the third cycle on nothing of the old settings is left but the counter. -/
theorem run_of_cleared (hs : Cleared s) (hactive : (ins 0).active = true) (n : ℕ) :
    run step s ins (n + 2) =
      run step (firstState (ins 0) (firstCount s)) (fun k => ins (1 + k)) (n + 1) := by
  have hfirst : run step s ins (1 + 1) =
      run step (firstState (ins 0) (firstCount s)) (fun k => ins (1 + k)) 1 := by
    rw [run_succ, run_succ, run_zero, step_of_cleared hs hactive]
    exact step_errorPipe1R (s := firstState (ins 0) (firstCount s)) rfl _
  induction n with
  | zero => exact hfirst
  | succ n ih =>
      rw [run_succ, ih, run_succ _ _ _ (n + 1), show 1 + (n + 1) = n + 2 by omega]

/-- The output of the second cycle does not depend on the old settings. -/
theorem pidOut_run_one (hs : Cleared s) (hactive : (ins 0).active = true) :
    pidOut (run step s ins 1) = pidOut (firstState (ins 0) (firstCount s)) := by
  rw [run_succ, run_zero, step_of_cleared hs hactive]
  rfl

end Runs

/-- A sample in the second cycle after the first enabled one, with proportional gain and
the longest decimation. -/
def probe (n : ℕ) : Input :=
  { largeError with
    decimateI := 0x3FFF#14
    datI := if n = 2 then 1024#16 else 0#16
    gainI := 1024#16
    egainI := 1024#16 }

/-- The probe is only seen by a controller whose counter stayed at zero. -/
theorem probe_separates :
    pidOut (run step (firstState (probe 0) 0#14) (fun k => probe (1 + k)) 3) ≠
      pidOut (run step (firstState (probe 0) 1#14) (fun k => probe (1 + k)) 3) := by
  decide +kernel

/-- Two controllers that were disabled for a cycle and then get the same inputs have the
same output from the second enabled cycle on, whatever the inputs are, if and only if
their old decimations are both 1 or both not. -/
theorem reenable_iff (r₁ r₂ : State) (i₁ i₂ : Input) (h₁ : i₁.enableI = false)
    (h₂ : i₂.enableI = false) :
    (∀ ins : ℕ → Input, (∀ n, (ins n).enableI = true) → ∀ n, 1 ≤ n →
        pidOut (run step (step i₁ r₁) ins n) = pidOut (run step (step i₂ r₂) ins n)) ↔
      ((step i₁ r₁).decimateR = 1#14 ↔ (step i₂ r₂).decimateR = 1#14) := by
  have hs₁ : Cleared (step i₁ r₁) := cleared_step (by simp [Input.active, h₁])
  have hs₂ : Cleared (step i₂ r₂) := cleared_step (by simp [Input.active, h₂])
  constructor
  · intro hsame
    have hactive : (probe 0).active = true := rfl
    have hprobe := hsame probe (fun _ => rfl) 4 (by omega)
    rw [run_of_cleared hs₁ hactive 2, run_of_cleared hs₂ hactive 2] at hprobe
    by_cases hone : (step i₁ r₁).decimateR = 1#14 <;>
      by_cases hone' : (step i₂ r₂).decimateR = 1#14
    · simp [hone, hone']
    · simp only [firstCount, hone, hone', if_true, if_false] at hprobe
      exact absurd hprobe probe_separates
    · simp only [firstCount, hone, hone', if_true, if_false] at hprobe
      exact absurd hprobe.symm probe_separates
    · simp [hone, hone']
  · intro hiff ins hen n hn
    have hcount : firstCount (step i₁ r₁) = firstCount (step i₂ r₂) := by
      simp only [firstCount, hiff]
    obtain ⟨n, rfl⟩ := Nat.exists_eq_add_of_le' hn
    cases hactive : (ins 0).active with
    | false =>
        -- a reset in the first cycle
        have hrst : (ins 0).rst = true := by
          by_contra hrst
          rw [active_iff.mpr ⟨eq_false_of_ne_true hrst, hen 0⟩] at hactive
          cases hactive
        have hfirst : run step (step i₁ r₁) ins 1 = run step (step i₂ r₂) ins 1 := by
          rw [run_succ, run_succ, run_zero, run_zero, step, if_pos hrst, step, if_pos hrst]
        rw [add_comm, run_add, run_add, hfirst]
    | true =>
        cases n with
        | zero => rw [pidOut_run_one hs₁ hactive, pidOut_run_one hs₂ hactive, hcount]
        | succ n => rw [run_of_cleared hs₁ hactive, run_of_cleared hs₂ hactive, hcount]

/-- The controller is disabled. -/
def pause : Input := { largeError with enableI := false }

/-- A controller that has run with decimation 2 for a cycle. -/
def decimatedState : State := run step resetState (fun _ => { largeError with decimateI := 2#14 }) 1

/-- The equivalence for a controller after reset and one that has run with decimation
2. -/
theorem reenable_iff_decimated :
    (∀ ins : ℕ → Input, (∀ n, (ins n).enableI = true) → ∀ n, 1 ≤ n →
        pidOut (run step (step pause resetState) ins n) =
          pidOut (run step (step pause decimatedState) ins n)) ↔
      ((step pause resetState).decimateR = 1#14 ↔ (step pause decimatedState).decimateR = 1#14) :=
  reenable_iff resetState decimatedState pause pause rfl rfl

/-- The old decimation of a controller shows in its output after it was disabled. -/
theorem decimation_remembered :
    ∃ (r₁ r₂ : State) (ins : ℕ → Input) (n : ℕ), Reachable r₁ ∧ Reachable r₂ ∧
      1 ≤ n ∧ (∀ k ∈ List.range n, (ins k).active = true) ∧
      pidOut (run step (step pause r₁) ins n) ≠ pidOut (run step (step pause r₂) ins n) :=
  ⟨resetState, decimatedState, probe, 4, ⟨fun _ => pause, 0, rfl⟩, ⟨_, _, rfl⟩, by omega,
    by decide +kernel⟩

end PidCore
end PoundDreverHall
