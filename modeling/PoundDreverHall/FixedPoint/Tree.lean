import Mathlib.Algebra.BigOperators.Field
import Mathlib.Algebra.BigOperators.Intervals
import Mathlib.Algebra.Order.BigOperators.Group.Finset
import Mathlib.Algebra.Order.Field.Basic
import Mathlib.Algebra.Order.Ring.Rat
import PoundDreverHall.FixedPoint.Saturation

/-!
# Fixed-point arithmetic - balanced trees

A balanced tree combines neighbouring values level by level.  A node depends on its own
leaves only.  If the absolute values of the leaves add up to less than the limit of a word,
no adder of the tree saturates.

Main results:

- Theorem {lit}`node_satSum`: a tree of saturating sums whose leaves are small enough is
  the sum of its leaves.
- Theorem {lit}`fits_node_add_node`: no adder of such a tree saturates.
-/

namespace FixedPoint

open Finset

/-! ## Nodes -/

section Node

variable {α β : Type*} (op : α → α → α) (f : ℕ → α)

/-- Node {lit}`k` on level {lit}`n` of the balanced tree over the leaves {lit}`f`. -/
def node : ℕ → ℕ → α
  | 0, k => f k
  | n + 1, k => op (node n (2 * k)) (node n (2 * k + 1))

@[simp]
theorem node_zero (k : ℕ) : node op f 0 k = f k :=
  rfl

theorem node_succ (n k : ℕ) :
    node op f (n + 1) k = op (node op f n (2 * k)) (node op f n (2 * k + 1)) :=
  rfl

/-- The leaves of the left and of the right half of a node. -/
theorem leaf_left (n k j : ℕ) : 2 ^ n * (2 * k) + j = 2 ^ (n + 1) * k + j := by
  rw [pow_succ]
  ring

theorem leaf_right (n k j : ℕ) : 2 ^ n * (2 * k + 1) + j = 2 ^ (n + 1) * k + (2 ^ n + j) := by
  rw [pow_succ]
  ring

/-- A node depends on its own leaves. -/
theorem node_congr {g : ℕ → α} {n k : ℕ}
    (h : ∀ j < 2 ^ n, f (2 ^ n * k + j) = g (2 ^ n * k + j)) : node op f n k = node op g n k := by
  induction n generalizing k with
  | zero => simpa using h 0 (by simp)
  | succ n ih =>
      rw [node_succ, node_succ]
      congr 1
      · apply ih
        intro j hj
        rw [leaf_left]
        exact h j (hj.trans (Nat.pow_lt_pow_right (by norm_num) (Nat.lt_succ_self n)))
      · apply ih
        intro j hj
        rw [leaf_right]
        exact h (2 ^ n + j) (by rw [pow_succ]; omega)

/-- A map that respects the operations may be applied at the leaves. -/
theorem map_node (op' : β → β → β) (φ : α → β) (hφ : ∀ a b, φ (op a b) = op' (φ a) (φ b))
    (n k : ℕ) : φ (node op f n k) = node op' (fun i => φ (f i)) n k := by
  induction n generalizing k with
  | zero => rfl
  | succ n ih => rw [node_succ, node_succ, hφ, ih, ih]

end Node

/-! ## Sums -/

section Sum

variable {M : Type*} [AddCommMonoid M]

/-- The leaves of a node are those of its two halves. -/
theorem sum_leaves_succ (f : ℕ → M) (n k : ℕ) :
    ∑ j ∈ range (2 ^ (n + 1)), f (2 ^ (n + 1) * k + j) =
      ∑ j ∈ range (2 ^ n), f (2 ^ n * (2 * k) + j) +
        ∑ j ∈ range (2 ^ n), f (2 ^ n * (2 * k + 1) + j) := by
  rw [show 2 ^ (n + 1) = 2 ^ n + 2 ^ n by rw [pow_succ]; omega, sum_range_add]
  congr 1
  · apply sum_congr rfl
    intro j _
    rw [leaf_left, pow_succ, Nat.mul_two]
  · apply sum_congr rfl
    intro j _
    rw [leaf_right, pow_succ, Nat.mul_two]

/-- The leaves of a node are among those of the whole tree. -/
theorem sum_leaves_le {g : ℕ → ℤ} (hg : ∀ j, 0 ≤ g j) {n N k : ℕ} (hk : 2 ^ n * (k + 1) ≤ 2 ^ N) :
    ∑ j ∈ range (2 ^ n), g (2 ^ n * k + j) ≤ ∑ j ∈ range (2 ^ N), g j := by
  have hinj : Set.InjOn (fun j => 2 ^ n * k + j) (range (2 ^ n) : Set ℕ) :=
    fun j _ j' _ heq => Nat.add_left_cancel heq
  rw [← sum_image hinj]
  apply sum_le_sum_of_subset_of_nonneg
  · intro i hi
    simp only [mem_image, mem_range] at hi ⊢
    obtain ⟨j, hj, rfl⟩ := hi
    rw [Nat.mul_succ] at hk
    omega
  · exact fun j _ _ => hg j

end Sum

/-! ## Saturating sums -/

section SatSum

variable {w : ℕ}

/-- The sum of two values, saturated to {lit}`w` bits. -/
def satSum (w : ℕ) (a b : ℤ) : ℤ :=
  saturate w (a + b)

/-- Values below the limit in absolute value fit. -/
theorem fits_of_abs_le {x : ℤ} (h : |x| ≤ 2 ^ (w - 1) - 1) : Fits w x := by
  obtain ⟨hlow, hhigh⟩ := abs_le.mp h
  exact ⟨by linarith, by linarith⟩

/-- A bound on the leaves of a node holds of the leaves of each half. -/
theorem sum_abs_halves_le (f : ℕ → ℤ) {n k : ℕ} {c : ℤ}
    (h : ∑ j ∈ range (2 ^ (n + 1)), |f (2 ^ (n + 1) * k + j)| ≤ c) :
    ∑ j ∈ range (2 ^ n), |f (2 ^ n * (2 * k) + j)| ≤ c ∧
      ∑ j ∈ range (2 ^ n), |f (2 ^ n * (2 * k + 1) + j)| ≤ c := by
  have hleft : 0 ≤ ∑ j ∈ range (2 ^ n), |f (2 ^ n * (2 * k) + j)| :=
    sum_nonneg fun j _ => abs_nonneg _
  have hright : 0 ≤ ∑ j ∈ range (2 ^ n), |f (2 ^ n * (2 * k + 1) + j)| :=
    sum_nonneg fun j _ => abs_nonneg _
  rw [sum_leaves_succ fun i => |f i|] at h
  constructor <;> linarith

/-- A tree of saturating sums over small leaves is a sum. -/
theorem node_satSum (f : ℕ → ℤ) {n k : ℕ}
    (h : ∑ j ∈ range (2 ^ n), |f (2 ^ n * k + j)| ≤ 2 ^ (w - 1) - 1) :
    node (satSum w) f n k = ∑ j ∈ range (2 ^ n), f (2 ^ n * k + j) := by
  induction n generalizing k with
  | zero => simp
  | succ n ih =>
      obtain ⟨hleft, hright⟩ := sum_abs_halves_le f h
      have habs := (abs_sum_le_sum_abs (fun j => f (2 ^ (n + 1) * k + j)) _).trans h
      rw [node_succ, ih hleft, ih hright, satSum, ← sum_leaves_succ]
      exact saturate_of_fits (fits_of_abs_le habs)

/-- No adder of a tree over small leaves saturates. -/
theorem fits_node_add_node (f : ℕ → ℤ) {n N k : ℕ} (hk : 2 ^ (n + 1) * (k + 1) ≤ 2 ^ N)
    (h : ∑ j ∈ range (2 ^ N), |f j| ≤ 2 ^ (w - 1) - 1) :
    Fits w (node (satSum w) f n (2 * k) + node (satSum w) f n (2 * k + 1)) := by
  have hle := (sum_leaves_le (fun j => abs_nonneg (f j)) hk).trans h
  obtain ⟨hleft, hright⟩ := sum_abs_halves_le f hle
  have habs := (abs_sum_le_sum_abs (fun j => f (2 ^ (n + 1) * k + j)) _).trans hle
  rw [node_satSum f hleft, node_satSum f hright, ← sum_leaves_succ]
  exact fits_of_abs_le habs

end SatSum

/-! ## Rounding -/

/-- A product of two fractions, rounded down, is not larger than its first factor. -/
theorem abs_mul_div_le {n : ℕ} {a x : ℤ} (hx : Fits (n + 1) x) : |a * x / 2 ^ n| ≤ |a| := by
  have hpos : (0 : ℤ) < 2 ^ n := by positivity
  rw [Fits, Nat.add_sub_cancel] at hx
  have hbound : |a * x| ≤ |a| * 2 ^ n := by
    rw [abs_mul]
    exact mul_le_mul_of_nonneg_left (abs_le.mpr ⟨hx.1, hx.2.le⟩) (abs_nonneg a)
  obtain ⟨hlow, hhigh⟩ := abs_le.mp hbound
  rw [abs_le]
  constructor
  · rw [Int.le_ediv_iff_mul_le hpos]
    linarith
  · exact Int.le_of_lt_add_one ((Int.ediv_lt_iff_lt_mul hpos).mpr (by linarith))

/-- Each of the terms of a sum loses less than one by rounding down. -/
theorem abs_sum_div_sub_lt {n : ℕ} (d : ℤ) (hd : 0 < d) (hn : 0 < n) (f : ℕ → ℤ) :
    |((∑ i ∈ range n, f i : ℤ) : ℚ) / d - ((∑ i ∈ range n, f i / d : ℤ) : ℚ)| < n := by
  have hd' : (0 : ℚ) < d := by exact_mod_cast hd
  have hterm : ∀ i, 0 ≤ (f i : ℚ) / d - ((f i / d : ℤ) : ℚ) ∧
      (f i : ℚ) / d - ((f i / d : ℤ) : ℚ) < 1 := by
    intro i
    have hdiv := Int.mul_ediv_add_emod (f i) d
    have hnonneg := Int.emod_nonneg (f i) hd.ne'
    have hlt := Int.emod_lt_of_pos (f i) hd
    have heq : (f i : ℚ) / d - ((f i / d : ℤ) : ℚ) = ((f i % d : ℤ) : ℚ) / d := by
      rw [eq_div_iff hd'.ne', sub_mul, div_mul_cancel₀ _ hd'.ne']
      have hcast : (d : ℚ) * ((f i / d : ℤ) : ℚ) + ((f i % d : ℤ) : ℚ) = f i := by
        exact_mod_cast hdiv
      linarith
    rw [heq]
    exact ⟨div_nonneg (by exact_mod_cast hnonneg) hd'.le,
      (div_lt_one hd').mpr (by exact_mod_cast hlt)⟩
  have hsum : ((∑ i ∈ range n, f i : ℤ) : ℚ) / d - ((∑ i ∈ range n, f i / d : ℤ) : ℚ) =
      ∑ i ∈ range n, ((f i : ℚ) / d - ((f i / d : ℤ) : ℚ)) := by
    push_cast
    rw [sum_sub_distrib, sum_div]
  have hlow : 0 ≤ ∑ i ∈ range n, ((f i : ℚ) / d - ((f i / d : ℤ) : ℚ)) :=
    sum_nonneg fun i _ => (hterm i).1
  have hhigh : ∑ i ∈ range n, ((f i : ℚ) / d - ((f i / d : ℤ) : ℚ)) < n := by
    have hlt : ∑ i ∈ range n, ((f i : ℚ) / d - ((f i / d : ℤ) : ℚ)) <
        ∑ _i ∈ range n, (1 : ℚ) :=
      sum_lt_sum_of_nonempty (nonempty_range_iff.mpr hn.ne') fun i _ => (hterm i).2
    simpa using hlt
  rw [hsum, abs_of_nonneg hlow]
  exact hhigh

end FixedPoint
