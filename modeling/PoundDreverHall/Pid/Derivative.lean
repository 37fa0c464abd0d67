import PoundDreverHall.Pid.Output

/-!
# PID controller - the derivative path

The derivative term multiplies the distance of the error from its exponential
average.  Both are 16-bit words, and so is their distance, which wraps when they are
far apart.

Main results:

- Theorem {lit}`derivativeExact_iff`: the distance is exact, and the average moves
  towards the error, if and only if the distance fits in 16 bits.
- Theorem {lit}`derivativeExact_of_bounded`: in every run whose gained errors stay in
  an interval of less than {lit}`2 ^ 15` around zero it does.
-/

namespace PoundDreverHall
namespace PidCore

open Clocked FixedPoint

/-! ## One step of the average -/

section Step

variable {i : Input} {s : State}

/-- The distance of the gained error from its average. -/
def distance (i : Input) (s : State) : ℤ := (errorGainedW i s).toInt - s.ykR.toInt

theorem toInt_errMinusEmaW_eq_iff :
    (errMinusEmaW i s).toInt = distance i s ↔ Fits 16 (distance i s) :=
  toInt_sub_eq_iff (by decide)

/-- An update of the average from a distance that fits. -/
theorem toInt_ykW (h : Fits 16 (distance i s)) (htick : s.tick1R = true) :
    (ykW i s).toInt = distance i s / 2 ^ s.alphaR.toNat + s.ykR.toInt := by
  have hshift : ((errMinusEmaW i s).sshiftRight s.alphaR.toNat).toInt =
      distance i s / 2 ^ s.alphaR.toNat := by
    rw [toInt_sshiftRight, toInt_errMinusEmaW_eq_iff.mpr h]
  have hbetween := between_average s.ykR.toInt (errorGainedW i s).toInt s.alphaR.toNat
  have hy := fits_toInt s.ykR
  have he := fits_toInt (errorGainedW i s)
  rw [ykW, if_pos htick, toInt_add (by decide), hshift]
  rw [hshift]
  exact ⟨(le_min hy.1 he.1).trans hbetween.1, hbetween.2.trans_lt (max_lt hy.2 he.2)⟩

theorem between_ykW (h : Fits 16 (distance i s)) (htick : s.tick1R = true) :
    Between s.ykR.toInt (errorGainedW i s).toInt (ykW i s).toInt := by
  rw [toInt_ykW h htick]
  exact between_average _ _ _

end Step

/-- The distance is the integer difference, the average moves towards the error and not
past it, and the derivative product is that of the difference. -/
structure DerivativeExact (i : Input) (s : State) : Prop where
  exact : (errMinusEmaW i s).toInt = (errorGainedW i s).toInt - s.ykR.toInt
  between : i.active = true → s.tick1R = true →
    Between s.ykR.toInt (errorGainedW i s).toInt (step i s).ykR.toInt
  product : i.active = true → s.tick2R = true →
    (step i s).dErrorR.toInt = s.kdR.toInt * ((errorGainedW i s).toInt - s.ykR.toInt)

theorem DerivativeExact.of_fits {i : Input} {s : State} (h : Fits 16 (distance i s)) :
    DerivativeExact i s := by
  have hexact := toInt_errMinusEmaW_eq_iff.mpr h
  refine ⟨hexact, ?_, ?_⟩
  · intro hactive htick
    rw [step_active hactive]
    exact between_ykW h htick
  · intro hactive htick
    rw [step_active hactive]
    simp only [toInt_dErrorW, htick, if_true, hexact]
    rfl

theorem DerivativeExact.fits {i : Input} {s : State} (h : DerivativeExact i s) :
    Fits 16 (distance i s) :=
  toInt_errMinusEmaW_eq_iff.mp h.exact

/-- The derivative path is exact if and only if the gained error and its average differ
by a 16-bit value. -/
theorem derivativeExact_iff (i : Input) (s : State) :
    DerivativeExact i s ↔ Fits 16 ((errorGainedW i s).toInt - s.ykR.toInt) :=
  ⟨DerivativeExact.fits, DerivativeExact.of_fits⟩

/-! ## Runs -/

section Runs

variable {ins : ℕ → Input} {lo hi : ℤ}

/-- The gained error in cycle {lit}`n`. -/
def gainedError (ins : ℕ → Input) (n : ℕ) : ℤ :=
  (errorGainedW (ins n) (run step resetState ins n)).toInt

/-- The average stays in every interval around zero that the gained errors do not leave. -/
theorem ykR_mem_of_bounded (hlo : lo ≤ 0) (hhi : 0 ≤ hi) (hwidth : hi - lo < 2 ^ 15)
    (h : ∀ n, lo ≤ gainedError ins n ∧ gainedError ins n ≤ hi) (n : ℕ) :
    lo ≤ (run step resetState ins n).ykR.toInt ∧ (run step resetState ins n).ykR.toInt ≤ hi := by
  induction n with
  | zero => exact ⟨hlo, hhi⟩
  | succ n ih =>
      obtain ⟨hlow, hhigh⟩ := h n
      rw [run_succ]
      cases hactive : (ins n).active with
      | false =>
          have hclear := cleared_step (s := run step resetState ins n) hactive
          rw [hclear.ykR]
          exact ⟨hlo, hhi⟩
      | true =>
          rw [step_active hactive]
          by_cases htick : (run step resetState ins n).tick1R = true
          · have hfits : Fits 16 (distance (ins n) (run step resetState ins n)) := by
              unfold gainedError at hlow hhigh
              unfold distance
              constructor <;> norm_num at hwidth ⊢ <;> linarith [ih.1, ih.2]
            have hbetween := between_ykW hfits htick
            exact ⟨(le_min ih.1 hlow).trans hbetween.1, hbetween.2.trans (max_le ih.2 hhigh)⟩
          · simp only [ykW, htick]
            exact ih

/-- Gained errors that stay in an interval of less than {lit}`2 ^ 15` around zero keep the
derivative path exact. -/
theorem derivativeExact_of_bounded (hlo : lo ≤ 0) (hhi : 0 ≤ hi) (hwidth : hi - lo < 2 ^ 15)
    (h : ∀ n, lo ≤ gainedError ins n ∧ gainedError ins n ≤ hi) (n : ℕ) :
    DerivativeExact (ins n) (run step resetState ins n) := by
  apply DerivativeExact.of_fits
  obtain ⟨hlow, hhigh⟩ := h n
  obtain ⟨hyk, hyk'⟩ := ykR_mem_of_bounded hlo hhi hwidth h n
  unfold gainedError at hlow hhigh
  unfold distance
  constructor <;> norm_num at hwidth ⊢ <;> linarith

end Runs

/-! ## A jump from rail to rail -/

/-- The sample of a converter at input gain 4 with an average over two samples. -/
def sampleOf (dat : BitVec 16) : Input where
  rst := false
  kpI := 0#16
  kdI := 0x7FFF#16
  kiI := 0#16
  decimateI := 1#14
  spI := 0#14
  alphaI := 1#4
  satwidthI := 31#5
  datI := dat
  enableI := true
  gainI := 1024#16
  egainI := 4096#16
  biasI := 0#14

/-- The lowest sample twice, then the highest. -/
def jump (n : ℕ) : Input := if n < 2 then sampleOf (-8191#16) else sampleOf 8192#16

/-- After a jump the average moves away from the error, and the product has the wrong
sign. -/
theorem jump_moves_away :
    ∃ i s, Reachable s ∧ i.active = true ∧ s.tick1R = true ∧
      s.ykR.toInt < (errorGainedW i s).toInt ∧ (step i s).ykR.toInt < s.ykR.toInt ∧
      (errMinusEmaW i s).toInt < 0 ∧ ¬DerivativeExact i s := by
  have hfits : ¬Fits 16 (distance (jump 2) (run step resetState jump 2)) := by
    unfold distance
    decide +kernel
  exact ⟨jump 2, run step resetState jump 2, ⟨_, _, rfl⟩, rfl, by decide +kernel,
    by decide +kernel, by decide +kernel, by decide +kernel, fun h => hfits h.fits⟩

end PidCore
end PoundDreverHall
