import PoundDreverHall.Pid.Windup

/-!
# PID controller - the integrator

The sum of errors is clamped to a power of two, {lit}`2 ^ satwidth_r`, and the integral
term is the product with its coefficient divided by that power.  The clamp is
symmetric, so the term fits in 16 bits as long as the product was formed from a sum
inside the clamp that it is divided by.

Main results:

- Theorem {lit}`integrator_exact`: settings that change only while the controller is
  disabled keep the sum inside its clamp and the term exact.
- Theorem {lit}`ierrTap_of_widening`: so do settings that never get narrower while it
  runs.
- Theorem {lit}`ierrTap_exact_iff`: when the term is the saturated quotient in any case.
-/

namespace PoundDreverHall
namespace PidCore

open Clocked FixedPoint

/-! ## The invariant -/

/-- The clamp of the integrator. -/
def limit (s : State) : ℤ := 2 ^ s.satwidthR.toNat - 1

/-- The sum lies inside the clamp, and the product was formed from such a sum. -/
structure Clamped (s : State) : Prop where
  wide : 15 ≤ s.satwidthR.toNat
  sum : |s.sumErrorR.toInt| ≤ limit s
  product : |s.iErrorR.toInt| ≤ 2 ^ 15 * limit s

theorem limit_nonneg (s : State) : 0 ≤ limit s := by
  have hpos : (0 : ℤ) < 2 ^ s.satwidthR.toNat := by positivity
  unfold limit
  linarith

theorem Clamped.of_cleared {s : State} (h : Cleared s) (hwide : 15 ≤ s.satwidthR.toNat) :
    Clamped s where
  wide := hwide
  sum := by
    rw [h.sumErrorR]
    simpa using limit_nonneg s
  product := by
    rw [h.iErrorR]
    simpa using limit_nonneg s

theorem nextSatwidthW_wide (i : Input) : 15 ≤ (nextSatwidthW i).toNat := by
  unfold nextSatwidthW
  split_ifs with h
  · exact h
  · decide

section Step

variable {i : Input} {s : State}

theorem satwidthR_step :
    (step i s).satwidthR =
      if i.rst then 31#5 else if i.enableI then nextSatwidthW i else s.satwidthR := by
  unfold step
  split_ifs <;> rfl

/-- A sum that starts inside the clamp stays inside. -/
theorem abs_sumError2W_le (h : |s.sumErrorR.toInt| ≤ limit s) :
    |(sumError2W i s).toInt| ≤ limit s := by
  rw [toInt_sumError2W]
  split_ifs
  · rw [toInt_sumError1W, abs_le]
    have hpos := limit_nonneg s
    exact ⟨le_clamp _ _ _, clamp_le (by unfold limit at hpos; linarith) _⟩
  · exact h

theorem abs_iErrorW_le (hs : Clamped s) : |(iErrorW s).toInt| ≤ 2 ^ 15 * limit s := by
  rw [toInt_iErrorW]
  split_ifs
  · have hki := fits_toInt s.kiR
    rw [abs_mul]
    exact mul_le_mul (abs_le.mpr ⟨hki.1, hki.2.le⟩) hs.sum (abs_nonneg _) (by positivity)
  · exact hs.product

/-- An edge of a running controller keeps the invariant if the clamp does not get
narrower. -/
theorem Clamped.step_of_le (hs : Clamped s) (hactive : i.active = true)
    (hle : s.satwidthR.toNat ≤ (nextSatwidthW i).toNat) : Clamped (step i s) := by
  have hlimit : limit s ≤ limit (step i s) := by
    have hpow : (2 : ℤ) ^ s.satwidthR.toNat ≤ 2 ^ (nextSatwidthW i).toNat :=
      pow_le_pow_right₀ (by norm_num) hle
    rw [step_active hactive]
    unfold limit
    linarith
  have hsum := abs_sumError2W_le (i := i) hs.sum
  have hproduct := abs_iErrorW_le hs
  rw [step_active hactive] at hlimit ⊢
  exact ⟨nextSatwidthW_wide i, hsum.trans hlimit, by linarith⟩

/-- An edge of a running controller with nothing accumulated. -/
theorem Clamped.step_of_cleared (h : Cleared s) (hactive : i.active = true) :
    Clamped (step i s) := by
  have hsum : sumError2W i s = 0#32 := by
    simp [sumError2W, h.tick1R, h.sumErrorR]
  have hproduct : iErrorW s = 0#48 := by
    simp [iErrorW, h.tick2R, h.iErrorR]
  have hpos := limit_nonneg (step i s)
  rw [step_active hactive] at hpos ⊢
  refine ⟨nextSatwidthW_wide i, ?_, ?_⟩
  · simpa [hsum] using hpos
  · simpa [hproduct] using hpos

end Step

/-! ## Runs -/

section Runs

variable {ins : ℕ → Input}

/-- The clamp never gets narrower while the controller runs. -/
def Widening (ins : ℕ → Input) : Prop :=
  ∀ n, (ins n).active = true → (ins (n + 1)).active = true →
    nextSatwidthW (ins n) ≤ nextSatwidthW (ins (n + 1))

/-- `satwidth_i` changes only while the controller is disabled. -/
def SatwidthSettled (ins : ℕ → Input) : Prop :=
  ∀ n, (ins n).enableI = true → (ins (n + 1)).enableI = true →
    (ins (n + 1)).satwidthI = (ins n).satwidthI

theorem SatwidthSettled.widening (h : SatwidthSettled ins) : Widening ins := by
  intro n hn hn'
  have hsame := h n (active_iff.mp hn).2 (active_iff.mp hn').2
  rw [nextSatwidthW, nextSatwidthW, hsame]
  exact BitVec.le_refl _

theorem satwidthR_wide (ins : ℕ → Input) (n : ℕ) :
    15 ≤ (run step resetState ins n).satwidthR.toNat := by
  apply run_invariant (P := fun s : State => 15 ≤ s.satwidthR.toNat)
  · decide
  · intro n ih
    rw [satwidthR_step]
    split_ifs
    · decide
    · exact nextSatwidthW_wide (ins n)
    · exact ih

/-- Before an edge nothing is accumulated, or the last edge loaded the settings. -/
theorem cleared_or_loaded (ins : ℕ → Input) (n : ℕ) :
    Cleared (run step resetState ins n) ∨
      ∃ m, n = m + 1 ∧ (ins m).active = true ∧
        (run step resetState ins n).satwidthR = nextSatwidthW (ins m) := by
  cases n with
  | zero => exact .inl cleared_resetState
  | succ m =>
      rw [run_succ]
      cases hactive : (ins m).active with
      | false => exact .inl (cleared_step hactive)
      | true =>
          refine .inr ⟨m, rfl, hactive, ?_⟩
          rw [step_active hactive]

theorem clamped_run (h : Widening ins) (n : ℕ) : Clamped (run step resetState ins n) := by
  induction n with
  | zero => exact .of_cleared cleared_resetState (satwidthR_wide ins 0)
  | succ n ih =>
      have hwide := satwidthR_wide ins (n + 1)
      rw [run_succ] at hwide ⊢
      cases hactive : (ins n).active with
      | false => exact .of_cleared (cleared_step hactive) hwide
      | true =>
          rcases cleared_or_loaded ins n with hclear | ⟨m, rfl, hm, hloaded⟩
          · exact .step_of_cleared hclear hactive
          · apply ih.step_of_le hactive
            rw [hloaded]
            exact h m hm hactive

end Runs

/-! ## The integral term -/

/-- The product divided by the clamp, rounded down. -/
def quotient (s : State) : ℤ := s.iErrorR.toInt / 2 ^ s.satwidthR.toNat

/-- A product of a sum inside the clamp divides to 16 bits. -/
theorem Clamped.fits {s : State} (h : Clamped s) : Fits 16 (quotient s) := by
  have hpos : (0 : ℤ) < 2 ^ s.satwidthR.toNat := by positivity
  have hproduct := abs_le.mp h.product
  unfold limit at hproduct
  unfold quotient
  constructor
  · rw [Int.le_ediv_iff_mul_le hpos]
    norm_num at hproduct ⊢
    linarith
  · rw [Int.ediv_lt_iff_lt_mul hpos]
    norm_num at hproduct ⊢
    linarith

theorem toInt_ierrTap (s : State) : (ierrTap s).toInt = (quotient s).bmod (2 ^ 16) :=
  toInt_iErrorShiftedW s

/-- Settings that never get narrower while the controller runs keep the integral term
exact. -/
theorem ierrTap_of_widening {ins : ℕ → Input} (h : Widening ins) (n : ℕ) :
    (ierrTap (run step resetState ins n)).toInt = quotient (run step resetState ins n) := by
  rw [toInt_ierrTap, bmod_of_fits (by decide) (clamped_run h n).fits]

/-- If `satwidth_i` changes only while the controller is disabled, then in every cycle the
sum lies inside its clamp, an accepted update is the exact sum, clamped, and the
integral term is the exact quotient, which fits in 16 bits. -/
theorem integrator_exact (ins : ℕ → Input) (h : SatwidthSettled ins) (n : ℕ) :
    -limit (run step resetState ins n) ≤ (run step resetState ins n).sumErrorR.toInt ∧
      (run step resetState ins n).sumErrorR.toInt ≤ limit (run step resetState ins n) ∧
      ((ins n).active = true → Accepts (ins n) (run step resetState ins n) →
        (run step resetState ins (n + 1)).sumErrorR.toInt =
          clamp (-limit (run step resetState ins n)) (limit (run step resetState ins n))
            ((run step resetState ins n).sumErrorR.toInt +
              (errorGainedW (ins n) (run step resetState ins n)).toInt)) ∧
      Fits 16 (quotient (run step resetState ins n)) ∧
      (ierrTap (run step resetState ins n)).toInt = quotient (run step resetState ins n) := by
  have hclamped := clamped_run h.widening n
  obtain ⟨hlow, hhigh⟩ := abs_le.mp hclamped.sum
  refine ⟨hlow, hhigh, ?_, hclamped.fits, ierrTap_of_widening h.widening n⟩
  intro hactive haccepts
  rw [run_succ, step_active hactive]
  simp only [toInt_sumError2W, haccepts, if_true, toInt_sumError1W]
  rfl

/-- The controller runs with a full-scale coefficient and the clamp {lit}`2 ^ k`. -/
def fullScale (k : BitVec 5) : Input where
  rst := false
  kpI := 0#16
  kdI := 0#16
  kiI := 0x7FFF#16
  decimateI := 1#14
  spI := 0#14
  alphaI := 0#4
  satwidthI := k
  datI := 8192#16
  enableI := true
  gainI := 1024#16
  egainI := 4096#16
  biasI := 0#14

/-- The integrator under one setting, in the fifth cycle. -/
theorem integrator_exact_fullScale :
    ∃ s, s = run step resetState (fun _ => fullScale 15#5) 4 ∧
      -limit s ≤ s.sumErrorR.toInt ∧ s.sumErrorR.toInt ≤ limit s ∧
      Fits 16 (quotient s) ∧ (ierrTap s).toInt = quotient s := by
  obtain ⟨hlow, hhigh, -, hfits, hexact⟩ :=
    integrator_exact (fun _ => fullScale 15#5) (fun _ _ _ => rfl) 4
  exact ⟨_, rfl, hlow, hhigh, hfits, hexact⟩

/-! ## Live changes -/

/-- The quotient fits in 16 bits, or its lowest 16 bits happen to be the limit on its
side. -/
def QuotientKept (s : State) : Prop :=
  (2 ^ 15 ≤ quotient s → quotient s % 2 ^ 16 = 2 ^ 15 - 1) ∧
    (quotient s < -2 ^ 15 → quotient s % 2 ^ 16 = 2 ^ 15)

instance (s : State) : Decidable (QuotientKept s) :=
  inferInstanceAs (Decidable ((_ → _) ∧ (_ → _)))

/-- The integral term is the saturated quotient if and only if the quotient fits in 16
bits or wraps to the limit on its side. -/
theorem ierrTap_exact_iff (s : State) :
    (ierrTap s).toInt = saturate 16 (quotient s) ↔ QuotientKept s := by
  have hupper : (quotient s).bmod (2 ^ 16) = 2 ^ (16 - 1) - 1 ↔
      quotient s % 2 ^ 16 = 2 ^ 15 - 1 := by
    rw [Int.bmod_def]
    norm_num
    split_ifs <;> omega
  have hlower : (quotient s).bmod (2 ^ 16) = -2 ^ (16 - 1) ↔ quotient s % 2 ^ 16 = 2 ^ 15 := by
    rw [Int.bmod_def]
    norm_num
    split_ifs <;> omega
  rw [toInt_ierrTap, bmod_eq_saturate_iff (by decide), hupper, hlower]
  rfl

/-- The clamp is narrowed in the fourth cycle of a run. -/
def narrowed (n : ℕ) : Input := if n < 3 then fullScale 31#5 else fullScale 15#5

/-- After the change the product is positive and the integral term is negative. -/
theorem narrowed_flips_sign :
    ∃ (ins : ℕ → Input) (n : ℕ), (∀ k ∈ List.range (n + 1), (ins k).active = true) ∧
      0 < (run step resetState ins n).iErrorR.toInt ∧
      (ierrTap (run step resetState ins n)).toInt < 0 ∧
      ¬(ierrTap (run step resetState ins n)).toInt =
        saturate 16 (quotient (run step resetState ins n)) :=
  ⟨narrowed, 4, by decide +kernel⟩

end PidCore
end PoundDreverHall
