import PoundDreverHall.Pid.Derivative
import PoundDreverHall.Pid.Windup

/-!
# PID controller - one update

An update takes two ticks.  On the first the integrator and the average take the
gained error, on the second the three products are formed.  As a sampled-data
controller each update should use one error sample; the derivative product takes the
error of the second tick.

Main results:

- Theorem {lit}`sumErrorR_eq` and theorem {lit}`ykR_eq`: integrator and average follow
  the difference equation.
- Theorem {lit}`update_terms`: the three products of an update, and when the derivative
  product is that of its error sample.
-/

namespace PoundDreverHall
namespace PidCore

open Clocked FixedPoint

/-! ## The difference equation -/

/-- An update: the error sample, and whether the integrator accepts it. -/
structure Update where
  error : ℤ
  accepted : Bool

/-- The running sum with the clamp {lit}`2 ^ k`; updates that anti-windup freezes are
left out. -/
def clampedSum (k : ℕ) (us : List Update) : ℤ :=
  us.foldl
    (fun sum u =>
      if u.accepted then clamp (-(2 ^ k - 1)) (2 ^ k - 1) (sum + u.error) else sum) 0

/-- The exponential average with weight {lit}`1 / 2 ^ a`, rounded down. -/
def average (a : ℕ) (us : List Update) : ℤ :=
  us.foldl (fun y u => y + (u.error - y) / 2 ^ a) 0

theorem clampedSum_append (k : ℕ) (us : List Update) (u : Update) :
    clampedSum k (us ++ [u]) =
      if u.accepted then clamp (-(2 ^ k - 1)) (2 ^ k - 1) (clampedSum k us + u.error)
      else clampedSum k us := by
  simp [clampedSum]

theorem average_append (a : ℕ) (us : List Update) (u : Update) :
    average a (us ++ [u]) = average a us + (u.error - average a us) / 2 ^ a := by
  simp [average]

/-! ## Updates of a run -/

section Runs

variable (s₀ : State) (ins : ℕ → Input)

/-- The gained error of cycle {lit}`n`. -/
def errorAt (n : ℕ) : ℤ := (errorGainedW (ins n) (run step s₀ ins n)).toInt

/-- The updates of the first {lit}`n` cycles. -/
def updates : ℕ → List Update
  | 0 => []
  | n + 1 =>
      if (run step s₀ ins n).tick1R then
        updates n ++
          [{ error := errorAt s₀ ins n
             accepted := decide (Accepts (ins n) (run step s₀ ins n)) }]
      else updates n

/-- The controller stays enabled and its coefficients stay the same. -/
structure Steady : Prop where
  active : ∀ n, (ins n).active = true
  kpI : ∀ n, (ins n).kpI = (ins 0).kpI
  kdI : ∀ n, (ins n).kdI = (ins 0).kdI
  kiI : ∀ n, (ins n).kiI = (ins 0).kiI
  alphaI : ∀ n, (ins n).alphaI = (ins 0).alphaI
  satwidthI : ∀ n, (ins n).satwidthI = (ins 0).satwidthI

variable {s₀ ins} (hs : Cleared s₀) (h : Steady ins)

include h

/-- The settings of a run from the second cycle on. -/
theorem settings_run (s₀ : State) (n : ℕ) :
    (run step s₀ ins (n + 1)).kpR = (ins 0).kpI ∧ (run step s₀ ins (n + 1)).kdR = (ins 0).kdI ∧
      (run step s₀ ins (n + 1)).kiR = (ins 0).kiI ∧
      (run step s₀ ins (n + 1)).alphaR = (ins 0).alphaI ∧
      (run step s₀ ins (n + 1)).satwidthR = nextSatwidthW (ins 0) := by
  rw [run_succ, step_active (h.active n)]
  refine ⟨h.kpI n, h.kdI n, h.kiI n, h.alphaI n, ?_⟩
  simp only [nextSatwidthW, h.satwidthI n]

include hs

omit h in
/-- There is no tick before the settings are loaded. -/
theorem exists_pred_of_tick1R {n : ℕ} (htick : (run step s₀ ins n).tick1R = true) :
    ∃ m, n = m + 1 := by
  cases n with
  | zero =>
      rw [run_zero, hs.tick1R] at htick
      cases htick
  | succ m => exact ⟨m, rfl⟩

/-- The integrator is the clamped running sum. -/
theorem sumErrorR_eq (n : ℕ) :
    (run step s₀ ins n).sumErrorR.toInt =
      clampedSum (nextSatwidthW (ins 0)).toNat (updates s₀ ins n) := by
  induction n with
  | zero =>
      rw [run_zero, hs.sumErrorR]
      rfl
  | succ n ih =>
      rw [run_succ, step_active (h.active n), updates]
      simp only [toInt_sumError2W]
      by_cases htick : (run step s₀ ins n).tick1R = true
      · rcases exists_pred_of_tick1R hs htick with ⟨m, rfl⟩
        obtain ⟨-, -, -, -, hwidth⟩ := settings_run h s₀ m
        rw [if_pos htick, clampedSum_append, toInt_sumError1W, hwidth, ih]
        simp only [decide_eq_true_eq]
        rfl
      · have hkeeps : ¬Accepts (ins n) (run step s₀ ins n) := fun haccepts => htick haccepts.1
        rw [if_neg htick, if_neg hkeeps, ih]

/-- The average follows its difference equation as long as no distance overflows. -/
theorem ykR_eq {n : ℕ} (hfit : ∀ u < n, (run step s₀ ins u).tick1R = true →
      Fits 16 (distance (ins u) (run step s₀ ins u))) :
    (run step s₀ ins n).ykR.toInt = average (ins 0).alphaI.toNat (updates s₀ ins n) := by
  induction n with
  | zero =>
      rw [run_zero, hs.ykR]
      rfl
  | succ n ih =>
      have hprev := ih fun u hu => hfit u (Nat.lt_succ_of_lt hu)
      rw [run_succ, step_active (h.active n), updates]
      by_cases htick : (run step s₀ ins n).tick1R = true
      · have hnow := hfit n (Nat.lt_succ_self n) htick
        simp only [toInt_ykW hnow htick]
        rcases exists_pred_of_tick1R hs htick with ⟨m, rfl⟩
        obtain ⟨-, -, -, halpha, -⟩ := settings_run h s₀ m
        rw [if_pos htick, average_append, halpha, ← hprev, add_comm]
        rfl
      · simp only [ykW, htick]
        exact hprev

/-- The products of an update: proportional and integral term come from its error sample,
the derivative term does if and only if the derivative coefficient is zero or the gained
error is still the same one cycle later. -/
theorem update_terms {t : ℕ} (htick : (run step s₀ ins t).tick1R = true)
    (hfit : ∀ u ≤ t + 1,
      (run step s₀ ins u).tick1R = true ∨ (run step s₀ ins u).tick2R = true →
        Fits 16 (distance (ins u) (run step s₀ ins u))) :
    (run step s₀ ins (t + 2)).pErrorR.toInt = (ins 0).kpI.toInt * errorAt s₀ ins t ∧
      (run step s₀ ins (t + 2)).iErrorR.toInt =
        (ins 0).kiI.toInt *
          clampedSum (nextSatwidthW (ins 0)).toNat (updates s₀ ins (t + 1)) ∧
      ((run step s₀ ins (t + 2)).dErrorR.toInt =
          (ins 0).kdI.toInt *
            (errorAt s₀ ins t - average (ins 0).alphaI.toNat (updates s₀ ins (t + 1))) ↔
        (ins 0).kdI = 0#16 ∨ errorAt s₀ ins (t + 1) = errorAt s₀ ins t) := by
  have hstep := run_succ step s₀ ins (t + 1)
  have htick2 : (run step s₀ ins (t + 1)).tick2R = true := by
    rw [run_succ, step_active (h.active t)]
    exact htick
  have hpipe : (run step s₀ ins (t + 1)).errorPipe1R.toInt = errorAt s₀ ins t := by
    rw [run_succ, step_active (h.active t)]
    rfl
  obtain ⟨hkp, hkd, hki, -, -⟩ := settings_run h s₀ t
  have hsum := sumErrorR_eq hs h (t + 1)
  have hyk := ykR_eq hs h fun u hu htick => hfit u (Nat.le_of_lt hu) (.inl htick)
  rw [step_active (h.active (t + 1))] at hstep
  refine ⟨?_, ?_, ?_⟩
  · rw [hstep]
    simp only [toInt_pErrorW, htick2, if_true, hkp, hpipe]
  · rw [hstep]
    simp only [toInt_iErrorW, htick2, if_true, hki, hsum]
  · have hproduct : (run step s₀ ins (t + 2)).dErrorR.toInt =
        (ins 0).kdI.toInt *
          (errorAt s₀ ins (t + 1) - average (ins 0).alphaI.toNat (updates s₀ ins (t + 1))) := by
      rw [hstep]
      simp only [toInt_dErrorW, htick2, if_true, hkd,
        toInt_errMinusEmaW_eq_iff.mpr (hfit (t + 1) le_rfl (.inr htick2)), distance, hyk]
      rfl
    have hzero : (ins 0).kdI.toInt = 0 ↔ (ins 0).kdI = 0#16 := by
      rw [← BitVec.toInt_inj]
      simp
    rw [hproduct, mul_eq_mul_left_iff, hzero, sub_left_inj, or_comm]

end Runs

/-! ## A ramp -/

/-- A sample that grows by one in every cycle. -/
def ramp (n : ℕ) : Input := sampleOf (BitVec.ofNat 16 n)

theorem steady_ramp : Steady ramp :=
  ⟨fun _ => rfl, fun _ => rfl, fun _ => rfl, fun _ => rfl, fun _ => rfl, fun _ => rfl⟩

/-- The first update on the ramp. -/
theorem update_terms_ramp :
    (run step resetState ramp 3).pErrorR.toInt =
        (ramp 0).kpI.toInt * errorAt resetState ramp 1 ∧
      (run step resetState ramp 3).iErrorR.toInt =
        (ramp 0).kiI.toInt *
          clampedSum (nextSatwidthW (ramp 0)).toNat (updates resetState ramp 2) ∧
      ((run step resetState ramp 3).dErrorR.toInt =
          (ramp 0).kdI.toInt *
            (errorAt resetState ramp 1 -
              average (ramp 0).alphaI.toNat (updates resetState ramp 2)) ↔
        (ramp 0).kdI = 0#16 ∨ errorAt resetState ramp 2 = errorAt resetState ramp 1) :=
  update_terms cleared_resetState steady_ramp (t := 1) (by decide +kernel) (by decide +kernel)

/-- On the ramp the derivative product of the first update is three times that of its
error sample. -/
theorem ramp_mixes_samples :
    ∃ (s₀ : State) (ins : ℕ → Input) (t : ℕ), Cleared s₀ ∧ Steady ins ∧
      (run step s₀ ins t).tick1R = true ∧ Accepts (ins t) (run step s₀ ins t) ∧
      (∀ u ≤ t + 1, Fits 16 (distance (ins u) (run step s₀ ins u))) ∧
      (run step s₀ ins (t + 2)).dErrorR.toInt =
        3 * ((ins 0).kdI.toInt *
          (errorAt s₀ ins t - average (ins 0).alphaI.toNat (updates s₀ ins (t + 1)))) ∧
      ¬(run step s₀ ins (t + 2)).dErrorR.toInt =
        (ins 0).kdI.toInt *
          (errorAt s₀ ins t - average (ins 0).alphaI.toNat (updates s₀ ins (t + 1))) :=
  ⟨resetState, ramp, 1, cleared_resetState, steady_ramp, by decide +kernel⟩

end PidCore
end PoundDreverHall
