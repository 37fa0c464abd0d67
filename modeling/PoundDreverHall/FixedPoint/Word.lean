import Mathlib.Algebra.Order.Ring.Abs
import Mathlib.Data.BitVec
import Mathlib.Tactic.Linarith
import Mathlib.Tactic.Ring

/-!
# Fixed-point arithmetic - signed words

A word of {lit}`w` bits stands for the integer it is in two's complement.  Every
operation on words is the operation on integers up to a multiple of
{lit}`2 ^ w`, and it is the operation itself when the result fits.

Main results:

- Theorem {lit}`bmod_eq_iff`: a result is kept if and only if it fits.
- Theorem {lit}`toInt_add`, theorem {lit}`toInt_sub` and theorem
  {lit}`toInt_mul`: operations whose result fits.
- Theorem {lit}`toInt_add_signExtend` and theorem {lit}`toInt_mul_signExtend`:
  operations in a word wide enough for every result.
- Theorem {lit}`toInt_extractLsb'`: a slice is a division that rounds down.
-/

namespace FixedPoint

/-! ## Ranges -/

/-- The integer is a value of a signed word of {lit}`w` bits. -/
def Fits (w : ℕ) (x : ℤ) : Prop := -2 ^ (w - 1) ≤ x ∧ x < 2 ^ (w - 1)

instance (w : ℕ) (x : ℤ) : Decidable (Fits w x) :=
  inferInstanceAs (Decidable (_ ∧ _))

variable {v w : ℕ}

theorem two_pow_pred (hw : 0 < w) : (2 : ℤ) ^ w = 2 ^ (w - 1) * 2 := by
  rw [← pow_succ, Nat.sub_add_cancel hw]

theorem Fits.mono {x : ℤ} (h : Fits v x) (hvw : v ≤ w) : Fits w x := by
  have hpow : (2 : ℤ) ^ (v - 1) ≤ 2 ^ (w - 1) := pow_le_pow_right₀ (by norm_num) (by omega)
  exact ⟨by linarith [h.1], by linarith [h.2]⟩

theorem fits_toInt (x : BitVec w) : Fits w x.toInt :=
  ⟨BitVec.le_toInt x, BitVec.toInt_lt⟩

/-! ## Wrapping -/

theorem bmod_of_fits (hw : 0 < w) {x : ℤ} (h : Fits w x) : x.bmod (2 ^ w) = x := by
  have hpow := two_pow_pred hw
  apply Int.bmod_eq_of_le_mul_two
  · push_cast
    linarith [h.1]
  · push_cast
    linarith [h.2]

theorem fits_bmod (x : ℤ) : Fits w (x.bmod (2 ^ w)) := by
  rw [← BitVec.toInt_ofInt]
  exact fits_toInt _

/-- A result is kept if and only if it fits. -/
theorem bmod_eq_iff (hw : 0 < w) {x : ℤ} : x.bmod (2 ^ w) = x ↔ Fits w x := by
  constructor
  · intro h
    rw [← h]
    exact fits_bmod x
  · exact bmod_of_fits hw

/-! ## Operations -/

theorem toInt_add (hw : 0 < w) {x y : BitVec w} (h : Fits w (x.toInt + y.toInt)) :
    (x + y).toInt = x.toInt + y.toInt := by
  rw [BitVec.toInt_add, bmod_of_fits hw h]

theorem toInt_sub (hw : 0 < w) {x y : BitVec w} (h : Fits w (x.toInt - y.toInt)) :
    (x - y).toInt = x.toInt - y.toInt := by
  rw [BitVec.toInt_sub, bmod_of_fits hw h]

theorem toInt_mul (hw : 0 < w) {x y : BitVec w} (h : Fits w (x.toInt * y.toInt)) :
    (x * y).toInt = x.toInt * y.toInt := by
  rw [BitVec.toInt_mul, bmod_of_fits hw h]

/-- A difference is exact if and only if it fits. -/
theorem toInt_sub_eq_iff (hw : 0 < w) {x y : BitVec w} :
    (x - y).toInt = x.toInt - y.toInt ↔ Fits w (x.toInt - y.toInt) := by
  rw [BitVec.toInt_sub, bmod_eq_iff hw]

/-- The sum of two words fits in one more bit than the wider of them. -/
theorem Fits.add {a b : ℤ} (hv : 0 < v) (ha : Fits v a) (hb : Fits v b) :
    Fits (v + 1) (a + b) := by
  have hpow := two_pow_pred hv
  obtain ⟨ha, ha'⟩ := ha
  obtain ⟨hb, hb'⟩ := hb
  rw [Fits, Nat.add_sub_cancel]
  exact ⟨by linarith, by linarith⟩

/-- The product of two words fits in as many bits as both have. -/
theorem Fits.mul {a b : ℤ} (hv : 0 < v) (hw : 0 < w) (ha : Fits v a) (hb : Fits w b) :
    Fits (v + w) (a * b) := by
  have hposv : (0 : ℤ) < 2 ^ (v - 1) := by positivity
  have hposw : (0 : ℤ) < 2 ^ (w - 1) := by positivity
  have hpow : (2 : ℤ) ^ (v + w - 1) = 2 ^ (v - 1) * 2 ^ (w - 1) * 2 := by
    rw [← pow_add, ← pow_succ]
    congr 1
    omega
  have hbound : |a * b| ≤ 2 ^ (v - 1) * 2 ^ (w - 1) := by
    rw [abs_mul]
    exact mul_le_mul (abs_le.mpr ⟨ha.1, ha.2.le⟩) (abs_le.mpr ⟨hb.1, hb.2.le⟩) (abs_nonneg b)
      hposv.le
  have hpos := mul_pos hposv hposw
  rw [Fits, hpow]
  constructor
  · linarith [neg_le_of_abs_le hbound]
  · linarith [le_of_abs_le hbound]

/-! ## Widening operations -/

/-- A sum formed in a wider word than its operands is exact. -/
theorem toInt_add_signExtend {u : ℕ} (x : BitVec v) (y : BitVec w) (hv : 0 < v) (hvu : v < u)
    (hwu : w < u) : (x.signExtend u + y.signExtend u).toInt = x.toInt + y.toInt := by
  have hx : (x.signExtend u).toInt = x.toInt := BitVec.toInt_signExtend_of_le hvu.le
  have hy : (y.signExtend u).toInt = y.toInt := BitVec.toInt_signExtend_of_le hwu.le
  have hx' : Fits (u - 1) x.toInt := (fits_toInt x).mono (by omega)
  have hy' : Fits (u - 1) y.toInt := (fits_toInt y).mono (by omega)
  have hfits := Fits.add (by omega) hx' hy'
  rw [Nat.sub_add_cancel (by omega)] at hfits
  rw [toInt_add (by omega), hx, hy]
  rw [hx, hy]
  exact hfits

/-- A product formed at the width of both operands is exact. -/
theorem toInt_mul_signExtend {u : ℕ} (x : BitVec v) (y : BitVec w) (hv : 0 < v) (hw : 0 < w)
    (hu : v + w ≤ u) : (x.signExtend u * y.signExtend u).toInt = x.toInt * y.toInt := by
  have hx : (x.signExtend u).toInt = x.toInt := BitVec.toInt_signExtend_of_le (by omega)
  have hy : (y.signExtend u).toInt = y.toInt := BitVec.toInt_signExtend_of_le (by omega)
  rw [toInt_mul (by omega), hx, hy]
  rw [hx, hy]
  exact ((fits_toInt x).mul hv hw (fits_toInt y)).mono hu

/-! ## Changes of width -/

/-- Dropping the upper bits wraps. -/
theorem toInt_setWidth (hvw : v ≤ w) (x : BitVec w) :
    (x.setWidth v).toInt = x.toInt.bmod (2 ^ v) := by
  rw [← BitVec.signExtend_eq_setWidth_of_le x hvw,
    BitVec.toInt_signExtend_eq_toInt_bmod_of_le x hvw]

theorem toInt_sshiftRight (x : BitVec w) (k : ℕ) :
    (x.sshiftRight k).toInt = x.toInt / 2 ^ k := by
  rw [BitVec.toInt_sshiftRight, Int.shiftRight_eq_div_pow]
  norm_cast

/-- A slice is a division that rounds down, and then wraps. -/
theorem toInt_extractLsb' {k : ℕ} (hk : k + v ≤ w) (x : BitVec w) :
    (x.extractLsb' k v).toInt = (x.toInt / 2 ^ k).bmod (2 ^ v) := by
  have hslice : x.extractLsb' k v = (x.sshiftRight k).setWidth v := by
    ext i hi
    simp [BitVec.getLsbD_sshiftRight, show ¬w ≤ i by omega, show k + i < w by omega]
  rw [hslice, toInt_setWidth (by omega), toInt_sshiftRight]

/-- A word without its lowest bits fits in the others. -/
theorem Fits.div {k : ℕ} {x : ℤ} (h : Fits (k + v) x) (hv : 0 < v) : Fits v (x / 2 ^ k) := by
  have hpos : (0 : ℤ) < 2 ^ k := by positivity
  have hpow : (2 : ℤ) ^ (k + v - 1) = 2 ^ (v - 1) * 2 ^ k := by
    rw [← pow_add]
    congr 1
    omega
  rw [Fits, hpow] at h
  constructor
  · rw [Int.le_ediv_iff_mul_le hpos]
    linarith [h.1]
  · rw [Int.ediv_lt_iff_lt_mul hpos]
    exact h.2

/-- The upper bits of a word are a division that rounds down. -/
theorem toInt_extractLsb'_top {k : ℕ} (hv : 0 < v) (x : BitVec (k + v)) :
    (x.extractLsb' k v).toInt = x.toInt / 2 ^ k := by
  rw [toInt_extractLsb' le_rfl, bmod_of_fits hv ((fits_toInt x).div hv)]

/-- A word whose value fits in fewer bits is the extension of its lower bits. -/
theorem signExtend_setWidth (hv : 0 < v) (hvw : v ≤ w) {x : BitVec w} (h : Fits v x.toInt) :
    (x.setWidth v).signExtend w = x := by
  apply BitVec.eq_of_toInt_eq
  rw [BitVec.toInt_signExtend_of_le hvw, toInt_setWidth hvw, bmod_of_fits hv h]

/-- The two top bits of a word agree if its value fits in one bit less. -/
theorem getLsbD_top (hw : 0 < w) {x : BitVec (w + 1)} (h : Fits w x.toInt) :
    x.getLsbD w = x.getLsbD (w - 1) := by
  rw [← signExtend_setWidth hw (Nat.le_succ w) h, BitVec.getLsbD_signExtend,
    BitVec.getLsbD_signExtend, if_neg (lt_irrefl w), if_pos (by omega : w - 1 < w),
    BitVec.msb_eq_getLsbD_last]
  simp [show w - 1 < w + 1 by omega]

/-- The two top bits of a word differ exactly if its value needs both. -/
theorem fits_iff_getLsbD_top (hw : 0 < w) (x : BitVec (w + 1)) :
    Fits w x.toInt ↔ x.getLsbD w = x.getLsbD (w - 1) := by
  refine ⟨getLsbD_top hw, fun h => ?_⟩
  have hext : (x.setWidth w).signExtend (w + 1) = x := by
    ext i hi
    by_cases hlt : i < w
    · simp [BitVec.getElem_signExtend, hlt, BitVec.getLsbD_eq_getElem hi]
    · obtain rfl : i = w := by omega
      simp only [BitVec.getElem_signExtend, hlt, dite_false, BitVec.msb_setWidth]
      simpa [hw, BitVec.getLsbD_eq_getElem] using h.symm
  rw [← hext, BitVec.toInt_signExtend_of_le (Nat.le_succ w)]
  exact fits_toInt _

end FixedPoint
