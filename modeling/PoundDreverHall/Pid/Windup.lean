import PoundDreverHall.Pid.Output

/-!
# PID controller - anti-windup

At a rail of the output the integrator must not be driven further into that rail.
The controller compares the candidate of the integrator with its old value, without
regard to the signs of the coefficients that the integral term is multiplied by.

Main results:

- Theorem {lit}`sumErrorR_step_of_upper_rail` and theorem
  {lit}`sumErrorR_step_of_lower_rail`: what an update does at a rail.
- Theorem {lit}`freezesHarmful_iff`: only the harmful direction is frozen if and only
  if the product of output gain and integral coefficient is not negative, or there is
  nothing to update.
-/

namespace PoundDreverHall
namespace PidCore

open Clocked FixedPoint

section Update

variable {i : Input} {s : State}

/-- The integrator takes its candidate: there is a tick, and the output is not at a rail on
whose side the candidate lies. -/
def Accepts (i : Input) (s : State) : Prop :=
  s.tick1R = true ∧ ¬(pidOut s = 0x3FFF#14 ∧ s.sumErrorR.toInt < (sumError1W i s).toInt) ∧
    ¬(pidOut s = 0#14 ∧ (sumError1W i s).toInt < s.sumErrorR.toInt)

instance (i : Input) (s : State) : Decidable (Accepts i s) :=
  inferInstanceAs (Decidable (_ ∧ ¬_ ∧ ¬_))

theorem toInt_sumError2W :
    (sumError2W i s).toInt =
      if Accepts i s then (sumError1W i s).toInt else s.sumErrorR.toInt := by
  rw [sumError2W, BitVec.slt_eq_decide, BitVec.slt_eq_decide, apply_ite BitVec.toInt]
  congr 1
  simp [Accepts, and_assoc, imp_iff_not_or]

section Tick

variable (hactive : i.active = true) (htick : s.tick1R = true)

include hactive htick

theorem sumErrorR_step_of_upper_rail (hrail : pidOut s = 0x3FFF#14) :
    (step i s).sumErrorR.toInt = min (sumError1W i s).toInt s.sumErrorR.toInt := by
  rw [step_active hactive]
  simp only [toInt_sumError2W]
  by_cases hup : s.sumErrorR.toInt < (sumError1W i s).toInt
  · rw [if_neg (by simp [Accepts, hrail, hup]), min_eq_right hup.le]
  · rw [if_pos (by simp [Accepts, hrail, htick, hup]), min_eq_left (not_lt.mp hup)]

theorem sumErrorR_step_of_lower_rail (hrail : pidOut s = 0#14) :
    (step i s).sumErrorR.toInt = max (sumError1W i s).toInt s.sumErrorR.toInt := by
  rw [step_active hactive]
  simp only [toInt_sumError2W]
  by_cases hdown : (sumError1W i s).toInt < s.sumErrorR.toInt
  · rw [if_neg (by simp [Accepts, hrail, hdown]), max_eq_right hdown.le]
  · rw [if_pos (by simp [Accepts, hrail, htick, hdown]), max_eq_left (not_lt.mp hdown)]

end Tick

end Update

/-! ## The harmful direction -/

/-- What the sum of errors contributes to the output, up to rounding and scale. -/
def contribution (s : State) (sum : BitVec 32) : ℤ :=
  s.gainR.toInt * s.kiR.toInt * sum.toInt

/-- At a rail, no update moves the contribution of the integrator towards the rail, and
every update that moves it away is made. -/
def FreezesHarmful (i : Input) (s : State) : Prop :=
  (pidOut s = 0x3FFF#14 →
    contribution s (step i s).sumErrorR ≤ contribution s s.sumErrorR ∧
      (contribution s (sumError1W i s) < contribution s s.sumErrorR →
        (step i s).sumErrorR = sumError1W i s)) ∧
  (pidOut s = 0#14 →
    contribution s s.sumErrorR ≤ contribution s (step i s).sumErrorR ∧
      (contribution s s.sumErrorR < contribution s (sumError1W i s) →
        (step i s).sumErrorR = sumError1W i s))

instance (i : Input) (s : State) : Decidable (FreezesHarmful i s) :=
  inferInstanceAs (Decidable ((_ → _ ∧ (_ → _)) ∧ (_ → _ ∧ (_ → _))))

/-- Keeping the smaller of two values holds back what a factor makes larger, and
nothing else, exactly when the factor is not negative. -/
theorem min_holds_back_iff {g c o : ℤ} :
    g * min c o ≤ g * o ∧ (g * c < g * o → min c o = c) ↔ 0 ≤ g ∨ c = o := by
  constructor
  · rintro ⟨hkeep, hmake⟩
    by_contra hneither
    obtain ⟨hneg, hne⟩ := not_or.mp hneither
    have hneg := not_le.mp hneg
    rcases lt_or_gt_of_ne hne with hlt | hgt
    · rw [min_eq_left hlt.le] at hkeep
      linarith [mul_lt_mul_of_neg_left hlt hneg]
    · have hsame := hmake (mul_lt_mul_of_neg_left hgt hneg)
      rw [min_eq_right hgt.le] at hsame
      exact hne hsame.symm
  · rintro (hpos | rfl)
    · refine ⟨mul_le_mul_of_nonneg_left (min_le_right c o) hpos, ?_⟩
      intro hlt
      exact min_eq_left (lt_of_mul_lt_mul_left hlt hpos).le
    · simp

theorem max_holds_back_iff {g c o : ℤ} :
    g * o ≤ g * max c o ∧ (g * o < g * c → max c o = c) ↔ 0 ≤ g ∨ c = o := by
  have h := min_holds_back_iff (g := g) (c := -c) (o := -o)
  have hmin : min (-c) (-o) = -max c o := by omega
  rw [hmin] at h
  simpa only [mul_neg, neg_le_neg_iff, neg_lt_neg_iff, neg_inj] using h

/-- On a tick at a rail, anti-windup freezes the harmful direction and no other if and
only if the output gain and the integral coefficient have no opposite signs, or the
candidate is the old sum. -/
theorem freezesHarmful_iff (i : Input) (s : State) (hactive : i.active = true)
    (htick : s.tick1R = true) (hrail : pidOut s = 0x3FFF#14 ∨ pidOut s = 0#14) :
    FreezesHarmful i s ↔ 0 ≤ s.gainR.toInt * s.kiR.toInt ∨ sumError1W i s = s.sumErrorR := by
  unfold FreezesHarmful contribution
  simp only [← BitVec.toInt_inj (y := sumError1W i s), ← BitVec.toInt_inj (y := s.sumErrorR)]
  rcases hrail with hrail | hrail
  · rw [sumErrorR_step_of_upper_rail hactive htick hrail]
    simpa [hrail] using min_holds_back_iff
  · rw [sumErrorR_step_of_lower_rail hactive htick hrail]
    simpa [hrail] using max_holds_back_iff

/-! ## A negative integral coefficient -/

/-- Proportional gain close to 1, integral coefficient -1 and output gain 4 on the
largest sample of a converter. -/
def negativeKi : Input :=
  { largeError with
    kiI := 0x8000#16
    gainI := 4096#16
    egainI := 1024#16 }

/-- The controller at its upper rail, in the third cycle after reset. -/
def negativeKiState : State := run step resetState (fun _ => negativeKi) 3

/-- The equivalence at the upper rail. -/
theorem freezesHarmful_iff_negativeKi :
    FreezesHarmful negativeKi negativeKiState ↔
      0 ≤ negativeKiState.gainR.toInt * negativeKiState.kiR.toInt ∨
        sumError1W negativeKi negativeKiState = negativeKiState.sumErrorR :=
  freezesHarmful_iff negativeKi negativeKiState rfl (by decide +kernel) (.inl (by decide +kernel))

/-- With a negative integral coefficient an update that would take the output off the
upper rail is frozen. -/
theorem negativeKi_freezes_relief :
    ∃ i s, Reachable s ∧ i.active = true ∧ s.tick1R = true ∧
      pidOut s = 0x3FFF#14 ∧
      contribution s (sumError1W i s) < contribution s s.sumErrorR ∧
      (step i s).sumErrorR = s.sumErrorR ∧ ¬FreezesHarmful i s :=
  ⟨negativeKi, negativeKiState, ⟨_, _, rfl⟩, rfl, by decide +kernel⟩

end PidCore
end PoundDreverHall
