import Mathlib.Logic.Function.Iterate
import PoundDreverHall.Clocked.Signal

/-!
# Clocked systems - phases in a fixed order

A protocol whose states fall into phases, each left only for the next one, makes
moves that can be counted.  The counter orders everything that happens at a move:
what belongs to an earlier move happened before.

Main results:

- Theorem {lit}`exists_moves`: a run through such phases has a counter of moves.
- Theorem {lit}`Held.exists_move`: every move counted was made at some event.
- Theorem {lit}`Held.move_lt`: earlier moves were made earlier.
-/

namespace Clocked

/-! ## Counters -/

section Counter

variable {m : ℕ → ℕ} (h : Held m)

include h

/-- Every value below the counter was passed at one event. -/
theorem Held.exists_move {k n : ℕ} (hk : k < m n) : ∃ t < n, m t = k ∧ m (t + 1) = k + 1 := by
  induction n with
  | zero =>
      rw [h.zero] at hk
      exact absurd hk (Nat.not_lt_zero k)
  | succ n ih =>
      by_cases hbefore : k < m n
      · rcases ih hbefore with ⟨t, ht, hmove⟩
        exact ⟨t, by omega, hmove⟩
      · rcases h.succ n with hstay | hmove
        · omega
        · exact ⟨n, by omega, by omega, by omega⟩

/-- A move is made before every event that finds the counter beyond it. -/
theorem Held.move_lt {t n : ℕ} (hlt : m t < m n) : t < n := by
  by_contra hle
  have hmono := h.monotone (Nat.le_of_not_lt hle)
  omega

end Counter

/-! ## Phases -/

section Phases

variable {φ : Type*} (A L : ℕ → φ → Prop) (next : φ → φ) (p₀ : φ)

/-- The number of moves made in the first {lit}`n` events: an event makes a move
if the phase does not hold any more. -/
noncomputable def moves : ℕ → ℕ
  | 0 => 0
  | n + 1 =>
      open Classical in
      if A (n + 1) (next^[moves n] p₀) then moves n else moves n + 1

variable {A L next p₀}

theorem held_moves : Held (moves A next p₀) where
  zero := rfl
  succ := by
    intro n
    rw [moves]
    split_ifs
    · exact .inl rfl
    · exact .inr rfl

/-- A run that stays in its phase or goes on to the next one is in the phase its
moves lead to, and what a phase needs to be left held at every move. -/
theorem exists_moves (hzero : A 0 p₀)
    (hstep : ∀ n p, A n p → A (n + 1) p ∨ L n p ∧ A (n + 1) (next p)) :
    ∃ m, Held m ∧ (∀ n, A n (next^[m n] p₀)) ∧
      ∀ n, m (n + 1) = m n + 1 → L n (next^[m n] p₀) := by
  have hall : ∀ n, A n (next^[moves A next p₀ n] p₀) := by
    intro n
    induction n with
    | zero => exact hzero
    | succ n ih =>
        rw [moves]
        split_ifs with hstay
        · exact hstay
        · rw [Function.iterate_succ_apply']
          exact ((hstep n _ ih).resolve_left hstay).2
  refine ⟨moves A next p₀, held_moves, hall, ?_⟩
  intro n hmove
  rw [moves] at hmove
  split_ifs at hmove with hstay
  · omega
  · exact ((hstep n _ (hall n)).resolve_left hstay).1

end Phases

end Clocked
