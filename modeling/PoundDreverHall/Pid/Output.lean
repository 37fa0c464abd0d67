import PoundDreverHall.Pid.Datapath

/-!
# PID controller - the output stage

The gained error is saturated to 20 bits and the offset and the bias are added in
the same 20 bits.  Close to the upper end of the saturated range that sum wraps, and
the clamp that follows sends the output to the lower rail.

Main results:

- Theorem {lit}`pidOut_exact_iff`: the output is the clamped sum, and monotone in
  the total error, if and only if the sum is below {lit}`2 ^ 19`.
- Theorem {lit}`pidOut_of_wrap`: any other sum gives the lower rail.
-/

namespace PoundDreverHall
namespace PidCore

open Clocked FixedPoint

/-! ## The last addition -/

/-- The saturated output with its offset and bias. -/
def offsetOutput (s : State) : ℤ :=
  saturate 20 (totalError s * s.gainR.toInt / 2 ^ 10) + 8191 + s.biasR.toInt

/-- The output is the clamped sum. -/
def OutputExact (s : State) : Prop :=
  ((pidOut s).toNat : ℤ) = clamp 0 16383 (offsetOutput s)

instance (s : State) : Decidable (OutputExact s) :=
  inferInstanceAs (Decidable (_ = _))

/-- The sum is formed in 20 bits. -/
theorem toNat_pidOut (s : State) :
    ((pidOut s).toNat : ℤ) = clamp 0 16383 ((offsetOutput s).bmod (2 ^ 20)) := by
  have hbias : (s.biasR.signExtend 20).toInt = s.biasR.toInt :=
    BitVec.toInt_signExtend_of_le (by decide)
  have hmid : (8191#20).toInt = 8191 := by decide
  rw [pidOut, toNat_satUnsignedFromSigned, BitVec.toInt_add, BitVec.toInt_add, hbias, hmid,
    Int.bmod_add_bmod, toInt_gainedWideW]
  rfl

section Bias

variable {s : State} (hbias : -8191 ≤ s.biasR.toInt)

include hbias

theorem offsetOutput_bounds :
    -2 ^ 19 ≤ offsetOutput s ∧ offsetOutput s < 2 ^ 19 + 8191 + 2 ^ 13 := by
  have hgained := fits_saturate 20 (totalError s * s.gainR.toInt / 2 ^ 10)
  have hmax : s.biasR.toInt < 2 ^ 13 := (fits_toInt s.biasR).2
  unfold offsetOutput
  obtain ⟨hlow, hhigh⟩ := hgained
  norm_num at hlow hhigh hmax ⊢
  constructor <;> linarith

/-- A sum that fits gives its clamped value. -/
theorem outputExact_of_le (h : offsetOutput s ≤ 2 ^ 19 - 1) : OutputExact s := by
  have hfits : Fits 20 (offsetOutput s) := ⟨(offsetOutput_bounds hbias).1, Int.lt_of_le_sub_one h⟩
  rw [OutputExact, toNat_pidOut, bmod_of_fits (by decide) hfits]

/-- A sum that does not fit gives the lower rail. -/
theorem pidOut_of_wrap (h : 2 ^ 19 - 1 < offsetOutput s) : pidOut s = 0#14 := by
  obtain ⟨-, hmax⟩ := offsetOutput_bounds hbias
  have hwrap : (offsetOutput s).bmod (2 ^ 20) = offsetOutput s - 2 ^ 20 := by
    rw [← bmod_of_fits (w := 20) (x := offsetOutput s - 2 ^ 20) (by decide)]
    · exact (Int.sub_bmod_right (offsetOutput s) (2 ^ 20)).symm
    · norm_num at h hmax
      constructor <;> norm_num <;> linarith
  have hzero : ((pidOut s).toNat : ℤ) = 0 := by
    rw [toNat_pidOut, hwrap]
    apply clamp_of_le
    norm_num at hmax
    linarith
  apply BitVec.eq_of_toNat_eq
  exact_mod_cast hzero

theorem outputExact_iff : OutputExact s ↔ offsetOutput s ≤ 2 ^ 19 - 1 := by
  constructor
  · intro hexact
    by_contra hwrap
    have hrail := pidOut_of_wrap hbias (not_le.mp hwrap)
    rw [OutputExact, hrail, clamp_of_ge (by norm_num)] at hexact
    · cases hexact
    · norm_num at hwrap
      linarith
  · exact outputExact_of_le hbias

end Bias

/-! ## Monotonicity -/

/-- For a positive gain the sum grows with the total error. -/
theorem offsetOutput_mono {s s' : State} (hbias : s'.biasR = s.biasR) (hgain : s'.gainR = s.gainR)
    (hpos : 0 < s.gainR.toInt) (h : totalError s' ≤ totalError s) :
    offsetOutput s' ≤ offsetOutput s := by
  have hprod : totalError s' * s'.gainR.toInt ≤ totalError s * s.gainR.toInt := by
    rw [hgain]
    exact mul_le_mul_of_nonneg_right h hpos.le
  have hquot := Int.ediv_le_ediv (show (0 : ℤ) < 2 ^ 10 by norm_num) hprod
  have hsat := saturate_mono 20 hquot
  unfold offsetOutput
  rw [hbias]
  linarith

/-- The output is at least that of every state with a smaller total error and the same
gain and bias. -/
def OutputMonotone (s : State) : Prop :=
  ∀ s' : State, s'.biasR = s.biasR → s'.gainR = s.gainR → 0 < s.gainR.toInt →
    totalError s' ≤ totalError s → pidOut s' ≤ pidOut s

/-- The output is the clamped sum, and monotone, if and only if the sum of the
saturated value, the offset and the bias fits in 20 bits. -/
theorem pidOut_exact_iff (s : State) (hbias : -8191 ≤ s.biasR.toInt) :
    OutputExact s ∧ OutputMonotone s ↔ offsetOutput s ≤ 2 ^ 19 - 1 := by
  constructor
  · rintro ⟨hexact, -⟩
    exact (outputExact_iff hbias).mp hexact
  · intro hle
    refine ⟨outputExact_of_le hbias hle, ?_⟩
    intro s' hbias' hgain hpos htotal
    have hsum := offsetOutput_mono hbias' hgain hpos htotal
    have hexact := outputExact_of_le hbias hle
    have hexact' := outputExact_of_le (s := s') (by rw [hbias']; exact hbias) (by linarith)
    have hclamp := clamp_mono (0 : ℤ) 16383 hsum
    rw [OutputExact] at hexact hexact'
    rw [← hexact, ← hexact'] at hclamp
    exact_mod_cast hclamp

/-! ## A large error -/

/-- A controller with proportional gain close to 1, input gain 4 and output gain close
to 32, on the largest sample of a converter. -/
def largeError : Input where
  rst := false
  kpI := 0x7FFF#16
  kdI := 0#16
  kiI := 0#16
  decimateI := 1#14
  spI := 0#14
  alphaI := 0#4
  satwidthI := 31#5
  datI := 8192#16
  enableI := true
  gainI := 0x7FFF#16
  egainI := 4096#16
  biasI := 0#14

/-- The same with input gain 1, output gain 4 and a bias. -/
def upperRail : Input :=
  { largeError with gainI := 4096#16, egainI := 1024#16, biasI := 100#14 }

/-- At the upper rail the output is exact and monotone, as long as the sum fits. -/
theorem pidOut_exact_iff_upperRail :
    ∃ s, Reachable s ∧ s.biasR.toInt = 100 ∧ s.gainR.toInt = 4096 ∧ totalError s = 8191 ∧
      offsetOutput s = 41055 ∧ pidOut s = 16383#14 ∧ OutputExact s ∧ OutputMonotone s := by
  have hstate : ∃ s, Reachable s ∧ s.biasR.toInt = 100 ∧ s.gainR.toInt = 4096 ∧
      totalError s = 8191 ∧ offsetOutput s = 41055 ∧ pidOut s = 16383#14 :=
    ⟨run step resetState (fun _ => upperRail) 3, ⟨_, _, rfl⟩, by decide +kernel⟩
  rcases hstate with ⟨s, hreach, hbias, hgain, htotal, hsum, hrail⟩
  have hexact := (pidOut_exact_iff s (by omega)).mpr (by omega)
  exact ⟨s, hreach, hbias, hgain, htotal, hsum, hrail, hexact.1, hexact.2⟩

/-- A large positive error sends the output to the lower rail. -/
theorem largeError_lower_rail :
    ∃ s, Reachable s ∧ -8191 ≤ s.biasR.toInt ∧ s.biasR.toInt ≤ 8191 ∧
      0 < totalError s * s.gainR.toInt ∧ pidOut s = 0#14 ∧ ¬OutputExact s :=
  ⟨run step resetState (fun _ => largeError) 3, ⟨_, _, rfl⟩, by decide +kernel⟩

end PidCore
end PoundDreverHall
