import Mathlib.Data.Set.Function
import PoundDreverHall.Clocked.Signal

/-!
# Clocked systems - one pulse for each event

A circuit that answers the events of several sources with pulses of one signal answers them exactly
if there is a pulse of its own for every event, and no other pulse.

Main results:

- Theorem {lit}`bijOn_delayed_iff`: a delayed signal answers the events of its sources exactly if
  the signal is high where one source has an event, and no two sources have one at once.
- Theorem {lit}`cycles_of_exclusive`: two sources that exclude each other are counted one by one.
-/

namespace Clocked

variable {ι : Type*}

/-- The events of the first {lit}`n` cycles, each with its source. -/
def eventsBefore (occurs : ι → ℕ → Bool) (n : ℕ) : Set (ι × ℕ) :=
  {e | e.2 < n ∧ occurs e.1 e.2 = true}

/-- The high cycles among the first {lit}`n`. -/
def highBefore (x : ℕ → Bool) (n : ℕ) : Set ℕ :=
  {k | k < n ∧ x k = true}

/-- A delayed signal has one high cycle for each event and no other one if and only if the signal
is high where a source has an event, and only one source has it. -/
theorem bijOn_delayed_iff (occurs : ι → ℕ → Bool) (x : ℕ → Bool) (d n : ℕ) :
    Set.BijOn (fun e => e.2 + d) (eventsBefore occurs n) (highBefore (delayed d false x) (n + d)) ↔
      (∀ k < n, x k = true ↔ ∃ i, occurs i k = true) ∧
        ∀ k < n, ∀ i j, occurs i k = true → occurs j k = true → i = j := by
  constructor
  · rintro ⟨hmaps, hinj, hsurj⟩
    refine ⟨fun k hk => ⟨fun hx => ?_, ?_⟩, fun k hk i j hi hj => ?_⟩
    · have hhigh : k + d ∈ highBefore (delayed d false x) (n + d) :=
        ⟨Nat.add_lt_add_right hk d, by rwa [delayed_add]⟩
      rcases hsurj hhigh with ⟨⟨i, k'⟩, ⟨-, hi⟩, hsame⟩
      obtain rfl : k' = k := Nat.add_right_cancel hsame
      exact ⟨i, hi⟩
    · rintro ⟨i, hi⟩
      have hhigh := (hmaps (show (i, k) ∈ eventsBefore occurs n from ⟨hk, hi⟩)).2
      rwa [delayed_add] at hhigh
    · have hsame := hinj (show (i, k) ∈ eventsBefore occurs n from ⟨hk, hi⟩)
        (show (j, k) ∈ eventsBefore occurs n from ⟨hk, hj⟩) rfl
      exact congrArg Prod.fst hsame
  · rintro ⟨hhigh, hone⟩
    refine ⟨?_, ?_, ?_⟩
    · rintro ⟨i, k⟩ ⟨hk, hi⟩
      refine ⟨Nat.add_lt_add_right hk d, ?_⟩
      rw [delayed_add]
      exact (hhigh k hk).mpr ⟨i, hi⟩
    · rintro ⟨i, k⟩ ⟨hk, hi⟩ ⟨j, k'⟩ ⟨-, hj⟩ hsame
      obtain rfl : k = k' := Nat.add_right_cancel hsame
      rw [hone k hk i j hi hj]
    · rintro m ⟨hm, hx⟩
      by_cases hlt : m < d
      · rw [delayed_of_lt false x hlt] at hx
        exact absurd hx Bool.false_ne_true
      · obtain ⟨k, rfl⟩ := Nat.exists_eq_add_of_le' (Nat.le_of_not_lt hlt)
        rw [delayed_add] at hx
        have hk : k < n := Nat.lt_of_add_lt_add_right hm
        rcases (hhigh k hk).mp hx with ⟨i, hi⟩
        exact ⟨(i, k), ⟨hk, hi⟩, rfl⟩

/-- A signal that is high for two sources, never for both at once, is high as often as the two
together. -/
theorem cycles_of_exclusive {x a b : ℕ → Bool} {n : ℕ} (hx : ∀ k < n, x k = (a k || b k))
    (hone : ∀ k < n, ¬(a k = true ∧ b k = true)) : cycles x n = cycles a n + cycles b n := by
  have hboth : cycles (fun k => a k && b k) n = 0 :=
    Nat.count_iff_forall_not.mpr fun k hk h => hone k hk (by simpa using h)
  have hsum := cycles_or_add_and a b n
  rw [hboth, Nat.add_zero] at hsum
  rw [← hsum]
  exact cycles_congr hx

end Clocked
