import Mathlib.Algebra.Order.Floor.Div
import Mathlib.Logic.Function.Basic
import Mathlib.Tactic.Common

/-!
# Clocked systems - sampling into a memory

A memory that is written on every edge holds, at each address, the word of the last
edge that named the address.  An address that advances once every {lit}`d` edges stays
on slot {lit}`k` until edge {lit}`d * k`, so that this edge decides what the slot holds.

Main results:

- Definition {lit}`stored`: the memory after a number of edges; theorem
  {lit}`stored_of_last`: the last write decides.
- Theorem {lit}`stored_slot`: what a divided address leaves in each slot.
-/

namespace Clocked

/-! ## Writes on every edge -/

section Stored

variable {A V : Type*} [DecidableEq A]

/-- Contents of a memory after {lit}`n` edges, each of which writes one word. -/
def stored (mem : A → V) (addr : ℕ → A) (data : ℕ → V) : ℕ → A → V
  | 0 => mem
  | n + 1 => Function.update (stored mem addr data n) (addr n) (data n)

variable (mem : A → V) (addr : ℕ → A) (data : ℕ → V)

@[simp]
theorem stored_zero : stored mem addr data 0 = mem :=
  rfl

theorem stored_succ (n : ℕ) :
    stored mem addr data (n + 1) =
      Function.update (stored mem addr data n) (addr n) (data n) :=
  rfl

/-- An address holds the word of the last edge that wrote it. -/
theorem stored_of_last {m n : ℕ} (hmn : m ≤ n)
    (hlast : ∀ k, m < k → k ≤ n → addr k ≠ addr m) :
    stored mem addr data (n + 1) (addr m) = data m := by
  induction n, hmn using Nat.le_induction with
  | base => simp [stored_succ]
  | succ n hmn ih =>
      have hne : addr m ≠ addr (n + 1) :=
        (hlast (n + 1) (Nat.lt_succ_of_le hmn) (Nat.le_refl _)).symm
      rw [stored_succ, Function.update_of_ne hne]
      exact ih fun k hk hkn => hlast k hk (Nat.le_succ_of_le hkn)

end Stored

/-! ## Divided addresses -/

section Slots

variable {d : ℕ} (hd : 0 < d)

include hd

/-- The slot advances after a multiple of {lit}`d`. -/
theorem ceilDiv_succ (n : ℕ) :
    (n + 1) ⌈/⌉ d = if n % d = 0 then n ⌈/⌉ d + 1 else n ⌈/⌉ d := by
  have hsucc : (n + 1) ⌈/⌉ d = n / d + 1 := by
    rw [Nat.ceilDiv_eq_add_pred_div, show n + 1 + d - 1 = n + d by omega, Nat.add_div_right n hd]
  have hmod := Nat.div_add_mod n d
  have hlt := Nat.mod_lt n hd
  rw [hsucc]
  by_cases hzero : n % d = 0
  · rw [if_pos hzero]
    have hmul : n = d * (n / d) := by omega
    conv_rhs => rw [hmul]
    rw [← smul_eq_mul d, smul_ceilDiv hd]
  · rw [if_neg hzero]
    apply le_antisymm
    · by_contra hless
      have hle : n ⌈/⌉ d ≤ n / d := by omega
      rw [ceilDiv_le_iff_le_mul hd] at hle
      omega
    · rw [ceilDiv_le_iff_le_mul hd, Nat.mul_add, Nat.mul_one]
      omega

/-- The slot never goes back. -/
theorem ceilDiv_mono {m n : ℕ} (hmn : m ≤ n) : m ⌈/⌉ d ≤ n ⌈/⌉ d := by
  rw [ceilDiv_le_iff_le_mul hd]
  exact hmn.trans ((ceilDiv_le_iff_le_mul hd).mp (Nat.le_refl _))

variable {A V : Type*} [DecidableEq A] (mem : A → V) (f : ℕ → A) (data : ℕ → V)

/-- What a divided address has left in slot {lit}`k` after edge {lit}`n`: the word of
the last edge that stayed on the slot. -/
theorem stored_slot {k n : ℕ} (hk : k ≤ n ⌈/⌉ d) (hf : Set.InjOn f {j | j ≤ n ⌈/⌉ d}) :
    stored mem (fun m => f (m ⌈/⌉ d)) data (n + 1) (f k) = data (min (d * k) n) := by
  have hslot : min (d * k) n ⌈/⌉ d = k := by
    rcases Nat.le_total (d * k) n with hle | hle
    · rw [Nat.min_eq_left hle, ← smul_eq_mul d, smul_ceilDiv hd]
    · rw [Nat.min_eq_right hle]
      exact le_antisymm ((ceilDiv_le_iff_le_mul hd).mpr hle) hk
  have hlast := stored_of_last mem (fun m => f (m ⌈/⌉ d)) data (Nat.min_le_right (d * k) n)
    (by
      intro m hm hmn heq
      -- a later edge on the same slot would have to come before edge {lit}`d * k`
      have hsame := hf (ceilDiv_mono hd hmn) (by simpa [hslot] using hk) heq
      have hle : m ≤ d * k := (ceilDiv_le_iff_le_mul hd).mp (by omega)
      omega)
  simpa only [hslot] using hlast

end Slots

end Clocked
