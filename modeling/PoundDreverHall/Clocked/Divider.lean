import Mathlib.Algebra.Order.Group.Nat
import Mathlib.Tactic.Common

/-!
# Clocked systems - dividers

A divider counts up to a limit and starts again at zero.  Wherever it starts, it
comes to zero, and from there on it is at zero exactly every {lit}`d` edges.

Main results:

- Theorem {lit}`Counts.eq_mod`: the count from a zero on.
- Theorem {lit}`Counts.exists_zero`: every count comes to zero.
- Theorem {lit}`Counts.zero_iff`: the period.
-/

namespace Clocked

/-- The sequence counts modulo {lit}`d`, and goes to zero from any count beyond. -/
def Counts (d : ℕ) (c : ℕ → ℕ) : Prop :=
  ∀ n, c (n + 1) = if d - 1 ≤ c n then 0 else c n + 1

namespace Counts

variable {d : ℕ} {c : ℕ → ℕ} (h : Counts d c)

include h

/-- A suffix of the sequence. -/
theorem drop (m : ℕ) : Counts d fun n => c (m + n) :=
  fun n => h (m + n)

theorem eq_mod (hd : 0 < d) (hzero : c 0 = 0) (n : ℕ) : c n = n % d := by
  induction n with
  | zero => rw [hzero, Nat.zero_mod]
  | succ n ih =>
      have hlt := Nat.mod_lt n hd
      rw [h, ih]
      split_ifs with hlast
      · rw [← Nat.mod_add_mod, show n % d + 1 = d by omega, Nat.mod_self]
      · rw [← Nat.mod_add_mod, Nat.mod_eq_of_lt (show n % d + 1 < d by omega)]

theorem exists_zero : ∃ n, c n = 0 := by
  -- the distance from the limit decreases with every edge
  induction hdist : d - 1 - c 0 generalizing c with
  | zero =>
      refine ⟨1, ?_⟩
      rw [h, if_pos (by omega)]
  | succ k ih =>
      have hnext : c 1 = c 0 + 1 := by
        rw [h, if_neg (by omega)]
      rcases ih (h.drop 1) (by show d - 1 - c 1 = k; omega) with ⟨n, hn⟩
      exact ⟨1 + n, hn⟩

/-- From a zero on, the count is zero exactly every {lit}`d` edges. -/
theorem zero_iff (hd : 0 < d) {m n : ℕ} (hzero : c m = 0) (hmn : m ≤ n) :
    c n = 0 ↔ d ∣ n - m := by
  have hmod := (h.drop m).eq_mod hd hzero (n - m)
  rw [Nat.add_sub_cancel' hmn] at hmod
  rw [hmod, Nat.dvd_iff_mod_eq_zero]

end Counts

end Clocked
