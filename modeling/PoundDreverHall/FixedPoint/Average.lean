import PoundDreverHall.FixedPoint.Saturation

/-!
# Fixed-point arithmetic - exponential averages

The average with weight {lit}`1 / 2 ^ k` adds the distance of the input, shifted to the
right by {lit}`k`.  A shift rounds towards minus infinity, so that the average comes down
all the way to a constant input, but stops below it once the distance is less than
{lit}`2 ^ k`.  A distance that wraps sends the average away from the input.

Main results:

- Theorem {lit}`Averages.exists_settled`: a constant input is approached in finitely many
  steps; theorem {lit}`Averages.eq_of_settled_above` and theorem
  {lit}`Averages.dead_zone`: where the average stops; theorem {lit}`Averages.settles`
  puts them together.
- Theorem {lit}`between_wrappedAverage_iff`: when a wrapped average still moves towards
  its input.
-/

namespace FixedPoint

/-! ## One step -/

/-- One step of the exponential average {lit}`y` of an input {lit}`c`. -/
def average (k : ℕ) (c y : ℤ) : ℤ := (c - y) / 2 ^ k + y

section Step

variable {k : ℕ} {c y : ℤ}

theorem average_mem_of_le (h : y ≤ c) : y ≤ average k c y ∧ average k c y ≤ c := by
  have hbetween := between_average y c k
  rwa [Between, min_eq_left h, max_eq_right h] at hbetween

theorem average_mem_of_ge (h : c ≤ y) : c ≤ average k c y ∧ average k c y ≤ y := by
  have hbetween := between_average y c k
  rwa [Between, min_eq_right h, max_eq_left h] at hbetween

/-- From above, every step counts. -/
theorem average_lt (h : c < y) : average k c y < y := by
  have hpos : (0 : ℤ) < 2 ^ k := by positivity
  have hneg : (c - y) / 2 ^ k < 0 := Int.ediv_neg_of_neg_of_pos (by linarith) hpos
  rw [average]
  linarith

/-- From below, the average stops within the weight of the input. -/
theorem average_eq_iff (h : y ≤ c) : average k c y = y ↔ c - y < 2 ^ k := by
  have hpos : (0 : ℤ) < 2 ^ k := by positivity
  have hnonneg : 0 ≤ (c - y) / 2 ^ k := Int.ediv_nonneg (by linarith) hpos.le
  have hone : (c - y) / 2 ^ k < 1 ↔ c - y < 2 ^ k := by
    rw [Int.ediv_lt_iff_lt_mul hpos, one_mul]
  rw [average, ← hone]
  constructor <;> intro <;> omega

/-- A step that moves the average brings it closer. -/
theorem natAbs_average_lt (h : average k c y ≠ y) :
    (c - average k c y).natAbs < (c - y).natAbs := by
  rcases le_total y c with hle | hge
  · have hmem := average_mem_of_le (k := k) hle
    omega
  · have hmem := average_mem_of_ge (k := k) hge
    omega

end Step

/-! ## A constant input -/

/-- The sequence averages the constant input {lit}`c`. -/
def Averages (k : ℕ) (c : ℤ) (y : ℕ → ℤ) : Prop :=
  ∀ n, y (n + 1) = average k c (y n)

/-- How a sequence approaches a constant input: monotonically, never past it, and to rest at
the input from above, or less than {lit}`2 ^ k` short of it from below. -/
structure Settles (k : ℕ) (c : ℤ) (y : ℕ → ℤ) : Prop where
  rises : y 0 ≤ c → ∀ n, y n ≤ y (n + 1) ∧ y (n + 1) ≤ c
  falls : c ≤ y 0 → ∀ n, c ≤ y (n + 1) ∧ y (n + 1) ≤ y n
  rests : ∃ m z, (∀ n, m ≤ n → y n = z) ∧ (c ≤ y 0 → z = c) ∧
    (y 0 < c → c - (2 ^ k - 1) ≤ z ∧ z ≤ c)

namespace Averages

variable {k : ℕ} {c : ℤ} {y : ℕ → ℤ} (h : Averages k c y)

include h

/-- The rest of the sequence. -/
theorem drop (m : ℕ) : Averages k c fun n => y (m + n) :=
  fun n => h (m + n)

theorem le_of_le (hstart : y 0 ≤ c) (n : ℕ) : y n ≤ c := by
  induction n with
  | zero => exact hstart
  | succ n ih =>
      rw [h n]
      exact (average_mem_of_le ih).2

theorem ge_of_ge (hstart : c ≤ y 0) (n : ℕ) : c ≤ y n := by
  induction n with
  | zero => exact hstart
  | succ n ih =>
      rw [h n]
      exact (average_mem_of_ge ih).1

/-- From below the sequence rises and does not pass the input. -/
theorem rises (hstart : y 0 ≤ c) (n : ℕ) : y n ≤ y (n + 1) ∧ y (n + 1) ≤ c := by
  rw [h n]
  exact average_mem_of_le (h.le_of_le hstart n)

/-- From above it falls and does not pass the input. -/
theorem falls (hstart : c ≤ y 0) (n : ℕ) : c ≤ y (n + 1) ∧ y (n + 1) ≤ y n := by
  rw [h n]
  exact average_mem_of_ge (h.ge_of_ge hstart n)

/-- A sequence that has stopped stays where it is. -/
theorem eq_of_fixed {m : ℕ} (hfixed : average k c (y m) = y m) {n : ℕ} (hmn : m ≤ n) :
    y n = y m := by
  induction n, hmn using Nat.le_induction with
  | base => rfl
  | succ n _ ih => rw [h n, ih, hfixed]

/-- The sequence stops, since every other step brings it closer to the input. -/
theorem exists_fixed : ∃ m, average k c (y m) = y m := by
  induction hdist : (c - y 0).natAbs using Nat.strong_induction_on generalizing y with
  | h dist ih =>
      by_cases hfixed : average k c (y 0) = y 0
      · exact ⟨0, hfixed⟩
      · have hcloser := natAbs_average_lt hfixed
        rw [← h 0, hdist] at hcloser
        rcases ih _ hcloser (h.drop 1) rfl with ⟨m, hm⟩
        exact ⟨1 + m, hm⟩

theorem exists_settled : ∃ m, average k c (y m) = y m ∧ ∀ n, m ≤ n → y n = y m := by
  rcases h.exists_fixed with ⟨m, hm⟩
  exact ⟨m, hm, fun n hmn => h.eq_of_fixed hm hmn⟩

/-- From above the sequence stops at the input. -/
theorem eq_of_settled_above (hstart : c ≤ y 0) {m : ℕ} (hfixed : average k c (y m) = y m) :
    y m = c := by
  by_contra hne
  have hlt : c < y m := lt_of_le_of_ne (h.ge_of_ge hstart m) (Ne.symm hne)
  exact absurd hfixed (average_lt hlt).ne

/-- From below it stops less than {lit}`2 ^ k` short of the input. -/
theorem dead_zone (hstart : y 0 ≤ c) {m : ℕ} (hfixed : average k c (y m) = y m) :
    c - (2 ^ k - 1) ≤ y m ∧ y m ≤ c := by
  have hle := h.le_of_le hstart m
  have hclose := (average_eq_iff hle).mp hfixed
  exact ⟨by linarith, hle⟩

theorem settles : Settles k c y := by
  rcases h.exists_settled with ⟨m, hfixed, hrest⟩
  refine ⟨h.rises, h.falls, m, y m, hrest, ?_, ?_⟩
  · exact fun hstart => h.eq_of_settled_above hstart hfixed
  · exact fun hstart => h.dead_zone hstart.le hfixed

end Averages

/-! ## Quotients of small numbers -/

section Quotient

variable {e : ℤ} {k : ℕ}

theorem div_two_pow_of_neg (he : e < 0) : e ≤ e / 2 ^ k ∧ e / 2 ^ k < 0 := by
  have hone : (1 : ℤ) ≤ 2 ^ k := one_le_pow₀ (by norm_num)
  refine ⟨?_, Int.ediv_neg_of_neg_of_pos he (by linarith)⟩
  rw [Int.le_ediv_iff_mul_le (by linarith)]
  nlinarith

/-- A negative number is rounded up by no proper division, except minus one. -/
theorem div_two_pow_le_iff (hk : 0 < k) (he : e < 0) : e / 2 ^ k ≤ e ↔ e = -1 := by
  have htwo : (2 : ℤ) ≤ 2 ^ k := le_self_pow₀ (by norm_num) hk.ne'
  have hmem := div_two_pow_of_neg (k := k) he
  constructor
  · intro hle
    have heq : e / 2 ^ k = e := le_antisymm hle hmem.1
    have hlt := Int.lt_ediv_add_one_mul_self e (show (0 : ℤ) < 2 ^ k by linarith)
    rw [heq] at hlt
    nlinarith
  · intro heq
    omega

theorem div_two_pow_of_pos (hk : 0 < k) (he : 0 < e) : 0 ≤ e / 2 ^ k ∧ e / 2 ^ k < e := by
  have htwo : (2 : ℤ) ≤ 2 ^ k := le_self_pow₀ (by norm_num) hk.ne'
  refine ⟨Int.ediv_nonneg he.le (by linarith), ?_⟩
  rw [Int.ediv_lt_iff_lt_mul (by linarith)]
  nlinarith

theorem div_two_pow_pos_iff : 0 < e / 2 ^ k ↔ 2 ^ k ≤ e := by
  have hpos : (0 : ℤ) < 2 ^ k := by positivity
  rw [← Int.add_one_le_iff, zero_add, Int.le_ediv_iff_mul_le hpos, one_mul]

end Quotient

/-! ## Wrapping -/

section Wrapped

variable {w : ℕ} (hw : 0 < w)

include hw

/-- A value beyond the upper limit wraps once. -/
theorem bmod_of_ge {x : ℤ} (hlow : 2 ^ (w - 1) ≤ x) (hhigh : x < 2 ^ (w - 1) + 2 ^ w) :
    x.bmod (2 ^ w) = x - 2 ^ w := by
  have hpow := two_pow_pred hw
  rw [← Int.sub_bmod_right, Nat.cast_pow, Nat.cast_ofNat]
  exact bmod_of_fits hw ⟨by linarith, by linarith⟩

/-- A value beyond the lower limit wraps once. -/
theorem bmod_of_lt {x : ℤ} (hlow : -2 ^ (w - 1) - 2 ^ w ≤ x) (hhigh : x < -2 ^ (w - 1)) :
    x.bmod (2 ^ w) = x + 2 ^ w := by
  have hpow := two_pow_pred hw
  rw [← Int.add_bmod_right, Nat.cast_pow, Nat.cast_ofNat]
  exact bmod_of_fits hw ⟨by linarith, by linarith⟩

variable {k : ℕ} {c y : ℤ} (hc : Fits w c) (hy : Fits w y)

/-- One step of the average in words of {lit}`w` bits. -/
def wrappedAverage (w k : ℕ) (c y : ℤ) : ℤ :=
  ((c - y).bmod (2 ^ w) / 2 ^ k + y).bmod (2 ^ w)

include hc

/-- With weight one the distance may wrap, since the sum wraps back. -/
theorem wrappedAverage_zero : wrappedAverage w 0 c y = c := by
  rw [wrappedAverage, pow_zero, Int.ediv_one, Int.bmod_add_bmod, sub_add_cancel]
  exact bmod_of_fits hw hc

include hy

/-- If the distance fits, the wrapped step is the step itself. -/
theorem wrappedAverage_of_fits (h : Fits w (c - y)) : wrappedAverage w k c y = average k c y := by
  have hbetween := between_average y c k
  rw [wrappedAverage, bmod_of_fits hw h]
  apply bmod_of_fits hw
  exact ⟨(le_min hy.1 hc.1).trans hbetween.1, hbetween.2.trans_lt (max_lt hy.2 hc.2)⟩

/-- A distance too large upwards becomes negative, and the average falls, or wraps past the
input. -/
theorem between_wrappedAverage_of_ge (hk : 0 < k) (hge : 2 ^ (w - 1) ≤ c - y) :
    Between y c (wrappedAverage w k c y) ↔ c - y = 2 ^ w - 1 := by
  obtain ⟨hc1, hc2⟩ := hc
  obtain ⟨hy1, hy2⟩ := hy
  have hpow := two_pow_pred hw
  have hpos : (0 : ℤ) < 2 ^ (w - 1) := by positivity
  have hneg : c - y - 2 ^ w < 0 := by linarith
  have hmem := div_two_pow_of_neg (k := k) hneg
  have hiff := div_two_pow_le_iff hk hneg
  rw [wrappedAverage, bmod_of_ge hw hge (by linarith), Between, min_eq_left (by linarith),
    max_eq_right (by linarith)]
  by_cases hwrap : (c - y - 2 ^ w) / 2 ^ k + y < -2 ^ (w - 1)
  · rw [bmod_of_lt hw (by linarith) hwrap]
    constructor
    · rintro ⟨-, hle⟩
      linarith [hiff.mp (by linarith)]
    · intro heq
      have hle := hiff.mpr (by linarith)
      exact ⟨by linarith, by linarith⟩
  · rw [bmod_of_fits hw ⟨not_lt.mp hwrap, by linarith⟩]
    constructor
    · rintro ⟨hle, -⟩
      linarith
    · intro heq
      have hle := hiff.mpr (by linarith)
      linarith

/-- A distance too large downwards becomes positive, and the average rises, or wraps past the
input, unless what is left of the distance is less than the weight. -/
theorem between_wrappedAverage_of_lt (hk : 0 < k) (hlt : c - y < -2 ^ (w - 1)) :
    Between y c (wrappedAverage w k c y) ↔ c - y < -2 ^ w + 2 ^ k := by
  obtain ⟨hc1, hc2⟩ := hc
  obtain ⟨hy1, hy2⟩ := hy
  have hpow := two_pow_pred hw
  have hpos : (0 : ℤ) < 2 ^ (w - 1) := by positivity
  have hgap : 0 < c - y + 2 ^ w := by linarith
  have hmem := div_two_pow_of_pos hk hgap
  have hiff := div_two_pow_pos_iff (e := c - y + 2 ^ w) (k := k)
  rw [wrappedAverage, bmod_of_lt hw (by linarith) hlt, Between, min_eq_right (by linarith),
    max_eq_left (by linarith)]
  by_cases hwrap : 2 ^ (w - 1) ≤ (c - y + 2 ^ w) / 2 ^ k + y
  · rw [bmod_of_ge hw hwrap (by linarith)]
    constructor
    · rintro ⟨hle, -⟩
      linarith
    · intro hsmall
      linarith [hiff.mp (by linarith)]
  · rw [bmod_of_fits hw ⟨by linarith, not_le.mp hwrap⟩]
    constructor
    · rintro ⟨-, hle⟩
      by_contra hbig
      linarith [hiff.mpr (by linarith)]
    · intro hsmall
      have hnot : ¬0 < (c - y + 2 ^ w) / 2 ^ k := by
        rw [hiff]
        linarith
      exact ⟨by linarith, by linarith⟩

/-- A wrapped average moves towards its input exactly if the distance fits, the weight is one,
or the distance is so large that wrapping leaves no step or the whole of it. -/
theorem between_wrappedAverage_iff (hkw : k ≤ w) :
    Between y c (wrappedAverage w k c y) ↔
      Fits w (c - y) ∨ k = 0 ∨ c - y = 2 ^ w - 1 ∨ c - y < -2 ^ w + 2 ^ k := by
  have hpow := two_pow_pred hw
  have hpos : (0 : ℤ) < 2 ^ (w - 1) := by positivity
  have hle : (2 : ℤ) ^ k ≤ 2 ^ w := pow_le_pow_right₀ (by norm_num) hkw
  by_cases hfits : Fits w (c - y)
  · rw [wrappedAverage_of_fits hw hc hy hfits]
    exact iff_of_true (between_average y c k) (.inl hfits)
  · rcases Nat.eq_zero_or_pos k with rfl | hk
    · rw [wrappedAverage_zero hw hc]
      exact iff_of_true ⟨min_le_right y c, le_max_right y c⟩ (.inr (.inl rfl))
    · by_cases hge : 2 ^ (w - 1) ≤ c - y
      · rw [between_wrappedAverage_of_ge hw hc hy hk hge]
        constructor
        · exact fun h => .inr (.inr (.inl h))
        · rintro (h | rfl | h | h)
          · exact absurd h hfits
          · exact absurd hk (lt_irrefl 0)
          · exact h
          · linarith
      · have hlt : c - y < -2 ^ (w - 1) := by
          by_contra hle
          exact hfits ⟨not_lt.mp hle, not_le.mp hge⟩
        rw [between_wrappedAverage_of_lt hw hc hy hk hlt]
        constructor
        · exact fun h => .inr (.inr (.inr h))
        · rintro (h | rfl | h | h)
          · exact absurd h hfits
          · exact absurd hk (lt_irrefl 0)
          · linarith
          · exact h

end Wrapped

end FixedPoint
