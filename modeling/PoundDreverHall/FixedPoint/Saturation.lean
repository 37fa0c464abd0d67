import PoundDreverHall.FixedPoint.Word

/-!
# Fixed-point arithmetic - saturation, products and averages

A result that does not fit is either wrapped or saturated.  This file has the
integer functions behind saturating hardware, the one product of fractions that
overflows, and the step of an exponential average whose weight is a power of two.

Main results:

- Theorem {lit}`toInt_saturate`: a saturating change of width.
- Theorem {lit}`bmod_eq_saturate_iff`: when wrapping and saturating agree.
- Theorem {lit}`fits_mul_div_iff`: the only product of two fractions that is no
  fraction is that of the two lowest ones.
- Theorem {lit}`between_average`: an average moves towards its input.
-/

namespace FixedPoint

/-! ## Clamping -/

section Clamp

variable {α : Type*} [LinearOrder α] {lo hi x y : α}

/-- The value of the interval closest to {lit}`x`. -/
def clamp (lo hi x : α) : α := max lo (min hi x)

/-- Nothing happens inside the bounds. -/
theorem clamp_of_mem (hlo : lo ≤ x) (hhi : x ≤ hi) : clamp lo hi x = x := by
  rw [clamp, min_eq_right hhi, max_eq_right hlo]

/-- Below the bounds the lower one is taken. -/
theorem clamp_of_le (h : x ≤ lo) : clamp lo hi x = lo :=
  max_eq_left ((min_le_right hi x).trans h)

/-- Above them the upper one is. -/
theorem clamp_of_ge (hlohi : lo ≤ hi) (h : hi ≤ x) : clamp lo hi x = hi := by
  rw [clamp, min_eq_left h, max_eq_right hlohi]

theorem le_clamp (lo hi x : α) : lo ≤ clamp lo hi x :=
  le_max_left lo _

theorem clamp_le (hlohi : lo ≤ hi) (x : α) : clamp lo hi x ≤ hi :=
  max_le hlohi (min_le_left hi x)

/-- The clamp keeps the order. -/
theorem clamp_mono (lo hi : α) (h : x ≤ y) : clamp lo hi x ≤ clamp lo hi y :=
  max_le_max le_rfl (min_le_min le_rfl h)

end Clamp

/-! ## Saturation -/

variable {v w : ℕ}

/-- The value of a signed word of {lit}`w` bits closest to {lit}`x`. -/
def saturate (w : ℕ) (x : ℤ) : ℤ := clamp (-2 ^ (w - 1)) (2 ^ (w - 1) - 1) x

theorem neg_two_pow_le (w : ℕ) : -(2 : ℤ) ^ (w - 1) ≤ 2 ^ (w - 1) - 1 := by
  have hpos : (0 : ℤ) < 2 ^ (w - 1) := by positivity
  linarith

/-- What is saturated fits. -/
theorem fits_saturate (w : ℕ) (x : ℤ) : Fits w (saturate w x) :=
  ⟨le_clamp _ _ x, Int.lt_of_le_sub_one (clamp_le (neg_two_pow_le w) x)⟩

/-- What fits is not changed. -/
theorem saturate_of_fits {x : ℤ} (h : Fits w x) : saturate w x = x :=
  clamp_of_mem h.1 (Int.le_sub_one_of_lt h.2)

/-- Saturation keeps the order. -/
theorem saturate_mono (w : ℕ) {x y : ℤ} (h : x ≤ y) : saturate w x ≤ saturate w y :=
  clamp_mono _ _ h

/-- Above the range the largest value is taken. -/
theorem saturate_of_ge {x : ℤ} (h : 2 ^ (w - 1) ≤ x) : saturate w x = 2 ^ (w - 1) - 1 :=
  clamp_of_ge (neg_two_pow_le w) (by linarith)

/-- Below it the smallest one is. -/
theorem saturate_of_lt {x : ℤ} (h : x < -2 ^ (w - 1)) : saturate w x = -2 ^ (w - 1) :=
  clamp_of_le h.le

/-- A comparison with the limits and a change of width saturate. -/
theorem toInt_saturate (hv : 0 < v) (hvw : v ≤ w) {hi lo : BitVec w} {hi' lo' : BitVec v}
    (hhi : hi.toInt = 2 ^ (v - 1) - 1) (hlo : lo.toInt = -2 ^ (v - 1))
    (hhi' : hi'.toInt = 2 ^ (v - 1) - 1) (hlo' : lo'.toInt = -2 ^ (v - 1)) (x : BitVec w) :
    (if BitVec.slt hi x then hi' else if BitVec.slt x lo then lo' else x.setWidth v).toInt =
      saturate v x.toInt := by
  rw [BitVec.slt_eq_decide, BitVec.slt_eq_decide, hhi, hlo]
  by_cases habove : 2 ^ (v - 1) - 1 < x.toInt
  · rw [if_pos (decide_eq_true habove), hhi', saturate_of_ge (Int.le_of_sub_one_lt habove)]
  · rw [if_neg (by simpa using habove)]
    by_cases hbelow : x.toInt < -2 ^ (v - 1)
    · rw [if_pos (decide_eq_true hbelow), hlo', saturate_of_lt hbelow]
    · have hfits : Fits v x.toInt := ⟨not_lt.mp hbelow, by linarith⟩
      rw [if_neg (by simpa using hbelow), toInt_setWidth hvw, bmod_of_fits hv hfits,
        saturate_of_fits hfits]

/-- Wrapping and saturating agree on what fits, and on what wraps to the limit on its
side. -/
theorem bmod_eq_saturate_iff (hw : 0 < w) {x : ℤ} :
    x.bmod (2 ^ w) = saturate w x ↔
      (2 ^ (w - 1) ≤ x → x.bmod (2 ^ w) = 2 ^ (w - 1) - 1) ∧
        (x < -2 ^ (w - 1) → x.bmod (2 ^ w) = -2 ^ (w - 1)) := by
  have hpos : (0 : ℤ) < 2 ^ (w - 1) := by positivity
  by_cases habove : 2 ^ (w - 1) ≤ x
  · have hbelow : ¬x < -2 ^ (w - 1) := by linarith
    simp [saturate_of_ge habove, habove, hbelow]
  · by_cases hbelow : x < -2 ^ (w - 1)
    · simp [saturate_of_lt hbelow, habove, hbelow]
    · have hfits : Fits w x := ⟨not_lt.mp hbelow, not_le.mp habove⟩
      simp [saturate_of_fits hfits, bmod_of_fits hw hfits, habove, hbelow]

/-! ## Products of fractions -/

/-- The product of two fractions with {lit}`n` fractional bits, rounded down, is such a
fraction unless both are {lit}`-1`. -/
theorem fits_mul_div_iff {n : ℕ} {a b : ℤ} (ha : Fits (n + 1) a) (hb : Fits (n + 1) b) :
    Fits (n + 1) (a * b / 2 ^ n) ↔ ¬(a = -2 ^ n ∧ b = -2 ^ n) := by
  have hpos : (0 : ℤ) < 2 ^ n := by positivity
  rw [Fits, Nat.add_sub_cancel] at ha hb ⊢
  rw [Int.le_ediv_iff_mul_le hpos, Int.ediv_lt_iff_lt_mul hpos]
  constructor
  · rintro ⟨-, hlt⟩ ⟨rfl, rfl⟩
    linarith [neg_mul_neg ((2 : ℤ) ^ n) (2 ^ n)]
  · intro hne
    constructor
    · nlinarith [ha.1, ha.2, hb.1, hb.2]
    · by_contra hge
      have habs : 2 ^ n * 2 ^ n ≤ a * b := not_lt.mp hge
      -- the product is only that large at one corner
      have hacorner : a = -2 ^ n := by
        nlinarith [ha.1, ha.2, hb.1, hb.2]
      rw [hacorner] at habs
      have hbcorner : b = -2 ^ n := by
        nlinarith [hb.1]
      exact hne ⟨hacorner, hbcorner⟩

/-! ## Averages -/

/-- The value lies between the two others. -/
def Between (a b x : ℤ) : Prop := min a b ≤ x ∧ x ≤ max a b

instance (a b x : ℤ) : Decidable (Between a b x) :=
  inferInstanceAs (Decidable (_ ∧ _))

/-- A step of the exponential average with weight {lit}`1 / 2 ^ k`, rounded down, ends
between the old value and the input. -/
theorem between_average (y e : ℤ) (k : ℕ) : Between y e ((e - y) / 2 ^ k + y) := by
  have hpos : (0 : ℤ) < 2 ^ k := by positivity
  have hone : (1 : ℤ) ≤ 2 ^ k := hpos
  rcases le_total y e with hye | hey
  · have hlow : 0 ≤ (e - y) / 2 ^ k := Int.ediv_nonneg (by linarith) hpos.le
    have hhigh : (e - y) / 2 ^ k ≤ e - y := Int.ediv_le_self _ (by linarith)
    rw [Between, min_eq_left hye, max_eq_right hye]
    exact ⟨by linarith, by linarith⟩
  · have hlow : e - y ≤ (e - y) / 2 ^ k := by
      rw [Int.le_ediv_iff_mul_le hpos]
      nlinarith
    have hhigh : (e - y) / 2 ^ k < 1 := by
      rw [Int.ediv_lt_iff_lt_mul hpos]
      linarith
    rw [Between, min_eq_right hey, max_eq_left hey]
    exact ⟨by linarith, by linarith⟩

end FixedPoint
