import Mathlib.Data.Nat.Count
import Mathlib.Order.Monotone.Basic
import Mathlib.Tactic.Cases

/-!
# Clocked systems - progress in rounds

Several clocks tick in any order.  A round is a piece of the run in which each of them ticks at
least once.  A system always waits for one of the clocks; while it waits, ticks of the others do not
matter, and every tick that it waits for leaves it with less to do.  It is done after as many rounds
as it has things to do, however the ticks of a round are ordered and however many there are.

Main results:

- Theorem {lit}`Progress.until_tick`: what has happened when the clock ticks.
- Theorem {lit}`Progress.within`: the number of rounds.
-/

namespace Clocked

variable {κ : Type*} {ticks : κ → ℕ → Prop} {bound : ℕ → ℕ} {rounds horizon : ℕ}

/-- In each of the first rounds, from {lit}`bound i` to {lit}`bound (i + 1)`, every clock ticks. -/
def Rounds (ticks : κ → ℕ → Prop) (bound : ℕ → ℕ) (rounds : ℕ) : Prop :=
  ∀ i < rounds, ∀ c, ∃ n, bound i ≤ n ∧ n < bound (i + 1) ∧ ticks c n

theorem Rounds.bound_le (h : Rounds ticks bound rounds) (c : κ) {i j : ℕ} (hij : i ≤ j)
    (hj : j ≤ rounds) : bound i ≤ bound j := by
  induction j, hij using Nat.le_induction with
  | base => exact le_refl _
  | succ j hij ih =>
      rcases h j hj c with ⟨n, hle, hlt, -⟩
      exact (ih (Nat.le_of_succ_le hj)).trans (hle.trans hlt.le)

/-- A clock ticks at least once for each round. -/
theorem Rounds.count_add_le (h : Rounds ticks bound rounds) (c : κ) [DecidablePred (ticks c)]
    {i k : ℕ} (hk : i + k ≤ rounds) :
    Nat.count (ticks c) (bound i) + k ≤ Nat.count (ticks c) (bound (i + k)) := by
  induction k with
  | zero => exact le_refl _
  | succ k ih =>
      rcases h (i + k) hk c with ⟨n, hle, hlt, htick⟩
      have hbefore := Nat.count_monotone (ticks c) hle
      have hafter := Nat.count_monotone (ticks c) (Nat.succ_le_of_lt hlt)
      rw [Nat.succ_eq_add_one, Nat.count_succ, if_pos htick] at hafter
      have hind := ih (Nat.le_of_succ_le hk)
      rw [← Nat.add_assoc i k 1]
      omega

/-- At {lit}`n` with {lit}`due n c k` the system waits for {lit}`c` and has {lit}`k` things to do.
In every step before the horizon it is done, or has less to do, or goes on waiting. -/
def Progress (ticks : κ → ℕ → Prop) (due : ℕ → κ → ℕ → Prop) (done : ℕ → Prop) (horizon : ℕ) :
    Prop :=
  ∀ n < horizon, ∀ c k, due n c k → done n ∨ (∃ c' k', due (n + 1) c' k' ∧ k' < k) ∨
    ¬ ticks c n ∧ due (n + 1) c k

namespace Progress

variable {due : ℕ → κ → ℕ → Prop} {done : ℕ → Prop} (h : Progress ticks due done horizon)

include h

/-- By the next tick of the clock that it waits for, the system is done or has less to do. -/
theorem until_tick {n m k : ℕ} {c : κ} (hdue : due n c k) (hnm : n ≤ m) (hm : m < horizon)
    (htick : ticks c m) :
    (∃ j, n ≤ j ∧ j ≤ m ∧ done j) ∨ ∃ j c' k', n ≤ j ∧ j ≤ m + 1 ∧ due j c' k' ∧ k' < k := by
  induction hgap : m - n generalizing n with
  | zero =>
      have heq : n = m := by omega
      subst heq
      rcases h n hm c k hdue with hdone | ⟨c', k', hless, hk⟩ | ⟨hwait, -⟩
      · exact .inl ⟨n, le_refl n, le_refl n, hdone⟩
      · exact .inr ⟨n + 1, c', k', n.le_succ, le_refl _, hless, hk⟩
      · exact absurd htick hwait
  | succ gap ih =>
      rcases h n (by omega) c k hdue with hdone | ⟨c', k', hless, hk⟩ | ⟨-, hstay⟩
      · exact .inl ⟨n, le_refl n, hnm, hdone⟩
      · exact .inr ⟨n + 1, c', k', n.le_succ, by omega, hless, hk⟩
      · rcases ih hstay (by omega) (by omega) with
          ⟨j, hnj, hjm, hdone⟩ | ⟨j, c', k', hnj, hjm, hless⟩
        · exact .inl ⟨j, by omega, hjm, hdone⟩
        · exact .inr ⟨j, c', k', by omega, hjm, hless⟩

/-- A system with {lit}`k` things to do is done in the rounds {lit}`i` to {lit}`i + k` at the
latest. -/
theorem within (hrounds : Rounds ticks bound rounds) (hhorizon : bound rounds ≤ horizon)
    {n i k : ℕ} {c : κ} (hdue : due n c k) (hn : n ≤ bound i) (hi : i + k < rounds) :
    ∃ j, n ≤ j ∧ j < bound (i + k + 1) ∧ done j := by
  induction k using Nat.strong_induction_on generalizing n i c with
  | h k ih =>
      rcases hrounds i (by omega) c with ⟨m, hle, hlt, htick⟩
      have hlast := hrounds.bound_le c (i := i + 1) (j := rounds) (by omega) (le_refl _)
      have hend := hrounds.bound_le c (i := i + 1) (j := i + k + 1) (by omega) (by omega)
      rcases h.until_tick hdue (hn.trans hle) (by omega) htick with
        ⟨j, hnj, hjm, hdone⟩ | ⟨j, c', k', hnj, hjm, hless, hk⟩
      · exact ⟨j, hnj, by omega, hdone⟩
      · rcases ih k' hk hless (i := i + 1) (by omega) (by omega) with ⟨l, hjl, hl, hdone⟩
        have hend' := hrounds.bound_le c (i := i + 1 + k' + 1) (j := i + k + 1) (by omega)
          (by omega)
        exact ⟨l, by omega, by omega, hdone⟩

end Progress

end Clocked
