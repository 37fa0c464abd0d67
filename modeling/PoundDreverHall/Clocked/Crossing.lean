import Mathlib.Data.Bool.Basic
import Mathlib.Data.Nat.Count
import Mathlib.Tactic.Cases
import Mathlib.Tactic.SplitIfs

/-!
# Clocked systems - a pulse that crosses into another clock domain

A pulse of one clock may fall between two edges of another.  A counter stretches it into a level of
{lit}`N` clock periods, and a chain of registers of the other clock brings the level over.  Two
levels that run together become one.  The edges of the two clocks come in any order, as long as
fewer than {lit}`N` edges of the near clock follow one another without one of the far clock.

Main results:

- Theorem {lit}`Crossing.conserved`: a pulse that finds the crossing at rest is on its way or has
  become one rising edge, and there are no other rising edges.
- Theorem {lit}`Crossing.delivered`: it has become one after as many edges of the far clock as there
  are registers.
- Theorem {lit}`Crossing.fresh_of_apart`: pulses that are far enough apart find it at rest.
-/

namespace Clocked

/-! ## Edges on their way -/

/-- The neighbours in a line of levels of which the first is high and the second is low. -/
def inTransit : List Bool → ℕ
  | a :: b :: line => (a && !b).toNat + inTransit (b :: line)
  | _ => 0

theorem inTransit_concat (line : List Bool) (b : Bool) :
    inTransit (line ++ [b]) = inTransit line + (line.getLastD false && !b).toNat := by
  induction line with
  | nil => rfl
  | cons a line ih =>
      cases line with
      | nil => simp [inTransit]
      | cons c line =>
          simp only [List.cons_append, inTransit, List.getLastD_cons] at ih ⊢
          omega

theorem inTransit_of_length_le_one {line : List Bool} (h : line.length ≤ 1) :
    inTransit line = 0 := by
  cases line with
  | nil => rfl
  | cons a line =>
      cases line with
      | nil => rfl
      | cons b line => simp at h

theorem inTransit_of_low {line : List Bool} (h : ∀ b ∈ line, b = false) : inTransit line = 0 := by
  induction line with
  | nil => rfl
  | cons a line ih =>
      obtain ⟨ha, hline⟩ := List.forall_mem_cons.mp h
      cases line with
      | nil => rfl
      | cons b line => simp [inTransit, ha, ih hline]

theorem ite_eq_toNat (b : Bool) : (if b = true then 1 else 0) = b.toNat := by
  cases b <;> rfl

/-- Behind a register the line loses at most the edge that arrives. -/
theorem inTransit_drop_concat_le (line : List Bool) (b : Bool) (j : ℕ) :
    inTransit ((line ++ [b]).drop j) ≤
      inTransit (line.drop j) + (line.getLastD false && !b).toNat := by
  induction line generalizing j with
  | nil =>
      have hnil : inTransit (([] ++ [b] : List Bool).drop j) = 0 := by
        cases j with
        | zero => rfl
        | succ j => simp [inTransit]
      omega
  | cons a line ih =>
      cases j with
      | zero => exact (inTransit_concat (a :: line) b).le
      | succ j =>
          have hdrop := ih j
          cases line with
          | nil =>
              have hnil : inTransit ((([a] ++ [b] : List Bool)).drop (j + 1)) = 0 := by
                cases j <;> simp [inTransit]
              omega
          | cons c line => simpa only [List.cons_append, List.drop_succ_cons,
              List.getLastD_cons] using hdrop

/-! ## The crossing -/

/-- The edges of the near clock since the last edge of the far clock. -/
def waited (near far : ℕ → Bool) : ℕ → ℕ
  | 0 => 0
  | n + 1 => if far n then 0 else if near n then waited near far n + 1 else waited near far n

theorem waited_self (near : ℕ → Bool) (n : ℕ) : waited near near n = 0 := by
  induction n with
  | zero => rfl
  | succ n ih =>
      rw [waited]
      split_ifs
      · rfl
      · exact ih

/-- The count depends on the steps before. -/
theorem waited_congr {near near' far far' : ℕ → Bool} {n : ℕ}
    (h : ∀ k < n, near k = near' k ∧ far k = far' k) : waited near far n = waited near' far' n := by
  induction n with
  | zero => rfl
  | succ n ih =>
      obtain ⟨hnear, hfar⟩ := h n (Nat.lt_succ_self n)
      rw [waited, waited, hnear, hfar, ih fun k hk => h k (Nat.lt_succ_of_lt hk)]

/-- Clocks that tick together wait for no edge. -/
theorem waited_eq_zero {near far : ℕ → Bool} {n : ℕ} (h : ∀ k < n, near k = far k) :
    waited near far n = 0 :=
  (waited_congr fun k hk => ⟨rfl, (h k hk).symm⟩).trans (waited_self near n)

/-- A run of a crossing.  In step {lit}`n` there is an edge of the near clock, of the far clock, of
both or of none; at an edge of the near clock there may be a pulse. -/
structure Crossing (N : ℕ) where
  near : ℕ → Bool
  far : ℕ → Bool
  pulse : ℕ → Bool
  stretch : ℕ → ℕ
  chain : ℕ → List Bool
  stretch_succ : ∀ n, stretch (n + 1) =
    if near n then if pulse n then N else stretch n - 1 else stretch n
  chain_succ : ∀ n, chain (n + 1) =
    if far n then decide (stretch n ≠ 0) :: (chain n).dropLast else chain n
  chain_ne_nil : chain 0 ≠ []

namespace Crossing

variable {N : ℕ} (c : Crossing N)

/-- The stretched level. -/
def level (n : ℕ) : Bool :=
  decide (c.stretch n ≠ 0)

/-- The level and the registers. -/
def line (n : ℕ) : List Bool :=
  c.level n :: c.chain n

/-- What the last register shows. -/
def output (n : ℕ) : Bool :=
  (c.chain n).getLastD false

/-- The output rises in step {lit}`n`. -/
def rises (n : ℕ) : Bool :=
  c.output (n + 1) && !c.output n

/-- A pulse in step {lit}`n` finds the level low, and so does the first register. -/
def fresh (n : ℕ) : Bool :=
  c.near n && c.pulse n && !c.level n && !(c.chain (n + 1)).headD false

/-- The far clock keeps up with the near one. -/
def KeepsUp : Prop :=
  ∀ n, waited c.near c.far n < N

theorem length_chain (n : ℕ) : (c.chain n).length = (c.chain 0).length := by
  induction n with
  | zero => rfl
  | succ n ih =>
      have hpos := List.length_pos_iff.mpr c.chain_ne_nil
      rw [c.chain_succ]
      split_ifs
      · rw [List.length_cons, List.length_dropLast]
        omega
      · exact ih

theorem chain_eq_concat (n : ℕ) : ∃ front last, c.chain n = front ++ [last] := by
  have hne : c.chain n ≠ [] := by
    have hpos := List.length_pos_iff.mpr c.chain_ne_nil
    rw [← c.length_chain n] at hpos
    exact List.length_pos_iff.mp hpos
  exact ⟨_, _, (List.dropLast_append_getLast hne).symm⟩

/-- A level that has not been seen lasts until the next edge of the far clock. -/
def Lasts (n : ℕ) : Prop :=
  c.level n = true → (c.chain n).headD false = false → N ≤ c.stretch n + waited c.near c.far n

variable {c}

theorem Lasts.of_rest {n : ℕ} (h : c.stretch n = 0) : c.Lasts n := by
  intro hlevel
  simp [level, h] at hlevel

section Step

variable (hkeeps : c.KeepsUp) {n : ℕ}

theorem Lasts.step (h : c.Lasts n) : c.Lasts (n + 1) := by
  intro hlevel hhead
  have hchain := c.chain_succ n
  have hstretch := c.stretch_succ n
  have hwaited : waited c.near c.far (n + 1) = if c.far n then 0
      else if c.near n then waited c.near c.far n + 1 else waited c.near c.far n := rfl
  simp only [level, decide_eq_true_eq] at hlevel
  by_cases hpulse : c.near n = true ∧ c.pulse n = true
  · rw [if_pos hpulse.1, if_pos hpulse.2] at hstretch
    omega
  · have hfalls : c.stretch (n + 1) ≤ c.stretch n := by
      rw [hstretch]
      split_ifs with hnear hp
      · exact absurd ⟨hnear, hp⟩ hpulse
      · omega
      · omega
    have hhigh : c.stretch n ≠ 0 := by omega
    cases hfar : c.far n with
    | true =>
        rw [hchain, hfar, if_pos rfl, List.headD_cons] at hhead
        simp [hhigh] at hhead
    | false =>
        rw [hchain, hfar, if_neg (by decide)] at hhead
        have hlasts := h (by simp [level, hhigh]) hhead
        rw [hfar, if_neg (by decide)] at hwaited
        cases hnear : c.near n with
        | true =>
            have hp : c.pulse n = false := Bool.eq_false_iff.mpr fun hp => hpulse ⟨hnear, hp⟩
            rw [hnear, if_pos rfl] at hwaited hstretch
            rw [hp, if_neg (by decide)] at hstretch
            omega
        | false =>
            rw [hnear, if_neg (by decide)] at hwaited hstretch
            omega

include hkeeps

/-- With no pulse, a level that is not seen in this step stays. -/
theorem level_stays (h : c.Lasts n) (hhead : (c.chain (n + 1)).headD false = false)
    (hpulse : ¬(c.near n = true ∧ c.pulse n = true)) : c.level (n + 1) = c.level n := by
  have hstretch := c.stretch_succ n
  have hnext := hkeeps (n + 1)
  have hwaited : waited c.near c.far (n + 1) = if c.far n then 0
      else if c.near n then waited c.near c.far n + 1 else waited c.near c.far n := rfl
  have hchain := c.chain_succ n
  simp only [level, decide_eq_decide]
  cases hnear : c.near n with
  | false => rw [hstretch, hnear, if_neg (by decide)]
  | true =>
      have hp : c.pulse n = false := Bool.eq_false_iff.mpr fun hp => hpulse ⟨hnear, hp⟩
      rw [hnear, if_pos rfl, hp, if_neg (by decide)] at hstretch
      cases hfar : c.far n with
      | true =>
          rw [hchain, hfar, if_pos rfl, List.headD_cons, decide_eq_false_iff_not] at hhead
          omega
      | false =>
          rw [hchain, hfar, if_neg (by decide)] at hhead
          rw [hfar, if_neg (by decide), hnear, if_pos rfl] at hwaited
          by_cases hlow : c.stretch n = 0
          · omega
          · have hlasts := h (by simp [level, hlow]) hhead
            omega

/-- An edge that sets out is that of a fresh pulse. -/
theorem setsOut (h : c.Lasts n) :
    (c.level (n + 1) && !(c.chain (n + 1)).headD false) =
      (c.level n && !(c.chain (n + 1)).headD false || c.fresh n) := by
  have hpos := hkeeps n
  cases hhead : (c.chain (n + 1)).headD false with
  | true =>
      rw [fresh, hhead]
      simp
  | false =>
      by_cases hpulse : c.near n = true ∧ c.pulse n = true
      · have hstretch := c.stretch_succ n
        rw [if_pos hpulse.1, if_pos hpulse.2] at hstretch
        have hlevel : c.level (n + 1) = true := by
          rw [level, decide_eq_true_eq]
          omega
        rw [fresh, hhead, hlevel, hpulse.1, hpulse.2]
        simp
      · rw [level_stays hkeeps h hhead hpulse]
        have hstale : c.fresh n = false := by
          rw [fresh, hhead]
          simpa using fun hnear hp => absurd ⟨hnear, hp⟩ hpulse
        rw [hstale, Bool.or_false]

/-- What arrives is an edge of the output. -/
theorem conserved_step (h : c.Lasts n) :
    (c.rises n).toNat + inTransit (c.line (n + 1)) = inTransit (c.line n) + (c.fresh n).toNat := by
  have hsets := setsOut hkeeps h
  rcases c.chain_eq_concat n with ⟨front, last, hchain⟩
  cases hfar : c.far n with
  | true =>
      have hnext : c.chain (n + 1) = c.level n :: front := by
        rw [c.chain_succ, hfar, if_pos rfl, hchain, List.dropLast_concat]
        rfl
      have hrises : c.rises n = ((c.level n :: front).getLastD false && !last) := by
        rw [rises, output, output, hnext, hchain, List.getLastD_concat]
      have hline : c.line n = (c.level n :: front) ++ [last] := by
        rw [line, hchain, List.cons_append]
      rw [hnext, List.headD_cons, Bool.and_not_self, Bool.false_or] at hsets
      rw [hline, inTransit_concat, line, hnext, inTransit, hsets, hrises]
      omega
  | false =>
      have hnext : c.chain (n + 1) = c.chain n := by
        rw [c.chain_succ, hfar, if_neg (by decide)]
      have hrises : c.rises n = false := by
        rw [rises, output, output, hnext]
        exact Bool.and_not_self _
      have hapart : c.level n = true → c.fresh n = false := by
        intro hlevel
        simp [fresh, hlevel]
      cases hcs : c.chain n with
      | nil => simp [hchain] at hcs
      | cons first rest =>
          rw [hnext, hcs, List.headD_cons] at hsets
          rw [line, line, hnext, hcs, inTransit, inTransit, hsets, hrises]
          cases hlevel : c.level n with
          | true =>
              rw [hapart hlevel, Bool.or_false]
              simp
          | false => simp [Nat.add_comm]

/-- With an edge of the far clock, what is on its way comes one register closer. -/
theorem arrives_step (h : c.Lasts n) (j : ℕ) :
    inTransit ((c.line n).drop j) ≤
      (c.rises n).toNat + inTransit ((c.line (n + 1)).drop (j + (c.far n).toNat)) := by
  rcases c.chain_eq_concat n with ⟨front, last, hchain⟩
  cases hfar : c.far n with
  | true =>
      have hnext : c.chain (n + 1) = c.level n :: front := by
        rw [c.chain_succ, hfar, if_pos rfl, hchain, List.dropLast_concat]
        rfl
      have hrises : c.rises n = ((c.level n :: front).getLastD false && !last) := by
        rw [rises, output, output, hnext, hchain, List.getLastD_concat]
      have hline : c.line n = (c.level n :: front) ++ [last] := by
        rw [line, hchain, List.cons_append]
      have hdrop := inTransit_drop_concat_le (c.level n :: front) last j
      rw [hline, line, hnext, hrises, Bool.toNat_true, List.drop_succ_cons]
      omega
  | false =>
      have hnext : c.chain (n + 1) = c.chain n := by
        rw [c.chain_succ, hfar, if_neg (by decide)]
      rw [Bool.toNat_false, Nat.add_zero]
      cases j with
      | zero =>
          have hstep := conserved_step hkeeps h
          rw [List.drop_zero, List.drop_zero]
          omega
      | succ j =>
          rw [line, line, hnext, List.drop_succ_cons, List.drop_succ_cons]
          exact Nat.le_add_left _ _

end Step

/-! ### Runs -/

section Run

variable (hkeeps : c.KeepsUp) (h : c.Lasts 0)

include h

theorem lasts (n : ℕ) : c.Lasts n := by
  induction n with
  | zero => exact h
  | succ n ih => exact ih.step

include hkeeps

/-- A pulse that finds the crossing at rest is on its way or has become an edge of the output, and
there are no other edges. -/
theorem conserved (n : ℕ) :
    Nat.count (fun k => c.rises k = true) n + inTransit (c.line n) =
      inTransit (c.line 0) + Nat.count (fun k => c.fresh k = true) n := by
  induction n with
  | zero => simp
  | succ n ih =>
      have hstep := conserved_step hkeeps (lasts h n)
      rw [Nat.count_succ, Nat.count_succ, ite_eq_toNat, ite_eq_toNat]
      omega

theorem arrives (m k : ℕ) :
    Nat.count (fun k => c.rises k = true) m + inTransit (c.line m) ≤
      Nat.count (fun k => c.rises k = true) (m + k) + inTransit ((c.line (m + k)).drop
        (Nat.count (fun k => c.far k = true) (m + k) - Nat.count (fun k => c.far k = true) m)) := by
  induction k with
  | zero => simp
  | succ k ih =>
      have hstep := arrives_step hkeeps (lasts h (m + k))
        (Nat.count (fun k => c.far k = true) (m + k) - Nat.count (fun k => c.far k = true) m)
      have hmono : Nat.count (fun k => c.far k = true) m ≤
          Nat.count (fun k => c.far k = true) (m + k) :=
        Nat.count_monotone _ (Nat.le_add_right m k)
      rw [← Nat.add_assoc, Nat.count_succ, Nat.count_succ, ite_eq_toNat, ite_eq_toNat,
        Nat.sub_add_comm hmono]
      omega

/-- A fresh pulse has become an edge of the output after as many edges of the far clock as there
are registers. -/
theorem delivered {m n : ℕ} (hmn : m ≤ n)
    (hedges : Nat.count (fun k => c.far k = true) m + (c.chain 0).length ≤
      Nat.count (fun k => c.far k = true) n) :
    inTransit (c.line 0) + Nat.count (fun k => c.fresh k = true) m ≤
      Nat.count (fun k => c.rises k = true) n := by
  rcases Nat.exists_eq_add_of_le hmn with ⟨k, rfl⟩
  have harrives := arrives hkeeps h m k
  have hconserved := conserved hkeeps h m
  have hnone : inTransit ((c.line (m + k)).drop (Nat.count (fun k => c.far k = true) (m + k) -
      Nat.count (fun k => c.far k = true) m)) = 0 := by
    apply inTransit_of_length_le_one
    rw [List.length_drop, line, List.length_cons, c.length_chain]
    omega
  omega

end Run

/-! ### The first pulse -/

/-- The first pulse finds a crossing at rest. -/
theorem fresh_of_first {n : ℕ} (hstretch : c.stretch 0 = 0)
    (hhead : (c.chain 0).headD false = false)
    (hfirst : ∀ k < n, ¬(c.near k = true ∧ c.pulse k = true))
    (hpulse : c.near n = true ∧ c.pulse n = true) : c.fresh n = true := by
  have hlow : ∀ k ≤ n, c.stretch k = 0 ∧ (c.chain k).headD false = false := by
    intro k hk
    induction k with
    | zero => exact ⟨hstretch, hhead⟩
    | succ k ih =>
        obtain ⟨hzero, hchain⟩ := ih (Nat.le_of_succ_le hk)
        have hnone := hfirst k hk
        rw [c.stretch_succ, c.chain_succ, hzero]
        constructor
        · split_ifs with hnear hp
          · exact absurd ⟨hnear, hp⟩ hnone
          · rfl
          · rfl
        · split_ifs
          · rfl
          · exact hchain
  obtain ⟨hzero, hchain⟩ := hlow n le_rfl
  have hseen : (c.chain (n + 1)).headD false = false := by
    rw [c.chain_succ, hzero]
    split_ifs
    · rfl
    · exact hchain
  rw [fresh, hpulse.1, hpulse.2, level, hzero, hseen]
  rfl

/-- The first pulse becomes an edge of the output. -/
theorem exists_rises (hkeeps : c.KeepsUp) (hstretch : c.stretch 0 = 0)
    (hchain : ∀ b ∈ c.chain 0, b = false) {n m : ℕ}
    (hfirst : ∀ k < n, ¬(c.near k = true ∧ c.pulse k = true))
    (hpulse : c.near n = true ∧ c.pulse n = true) (hnm : n < m)
    (hedges : Nat.count (fun k => c.far k = true) (n + 1) + (c.chain 0).length ≤
      Nat.count (fun k => c.far k = true) m) :
    ∃ r, n ≤ r ∧ r < m ∧ c.rises r = true := by
  have hlasts := Lasts.of_rest (c := c) hstretch
  have hhead : (c.chain 0).headD false = false := by
    rw [List.headD_eq_head?_getD]
    cases hfront : (c.chain 0).head? with
    | none => rfl
    | some b => exact hchain b (List.mem_of_mem_head? hfront)
  have hfresh := fresh_of_first hstretch hhead hfirst hpulse
  have hdelivered := delivered hkeeps hlasts (show n + 1 ≤ m from hnm) hedges
  have hsome : 0 < Nat.count (fun k => c.fresh k = true) (n + 1) := by
    rw [Nat.count_succ, if_pos hfresh]
    omega
  by_contra hnone
  push Not at hnone
  -- an edge before the pulse would be that of another pulse
  have hbefore : Nat.count (fun k => c.rises k = true) n = 0 := by
    have hconserved := conserved hkeeps hlasts n
    have hnofresh : Nat.count (fun k => c.fresh k = true) n = 0 := by
      rw [Nat.count_iff_forall_not]
      intro k hk hfresh
      simp only [fresh, Bool.and_eq_true] at hfresh
      exact hfirst k hk hfresh.1.1
    have htransit : inTransit (c.line 0) = 0 :=
      inTransit_of_low (by simpa [line, level, hstretch] using hchain)
    omega
  have hcount : Nat.count (fun k => c.rises k = true) m = 0 := by
    rw [Nat.count_iff_forall_not] at hbefore ⊢
    intro k hk hrises
    rcases Nat.lt_or_ge k n with hlt | hge
    · exact hbefore k hlt hrises
    · exact hnone k hge hk hrises
  omega

/-! ### Pulses that are far apart -/

/-- The edges of the near clock since the last pulse, which was long ago at the beginning. -/
def sincePulse (c : Crossing N) : ℕ → ℕ
  | 0 => 2 * N
  | n + 1 =>
      if c.near n then if c.pulse n then 0 else c.sincePulse n + 1 else c.sincePulse n

/-- The level falls in time, and then the first register. -/
structure Fades (c : Crossing N) (n : ℕ) : Prop where
  stretch : c.stretch n ≤ N - c.sincePulse n
  head : (c.chain n).headD false = true → c.sincePulse n ≤ N + waited c.near c.far n

theorem Fades.step {n : ℕ} (h : c.Fades n) : c.Fades (n + 1) := by
  have hstretch := c.stretch_succ n
  have hchain := c.chain_succ n
  have hold := h.stretch
  have hsince : c.sincePulse (n + 1) =
      if c.near n then if c.pulse n then 0 else c.sincePulse n + 1 else c.sincePulse n := rfl
  have hwaited : waited c.near c.far (n + 1) = if c.far n then 0
      else if c.near n then waited c.near c.far n + 1 else waited c.near c.far n := rfl
  constructor
  · split_ifs at hstretch hsince <;> omega
  · intro hhead
    cases hfar : c.far n with
    | true =>
        rw [hchain, hfar, if_pos rfl, List.headD_cons, decide_eq_true_eq] at hhead
        split_ifs at hsince <;> omega
    | false =>
        rw [hchain, hfar, if_neg (by decide)] at hhead
        have hbefore := h.head hhead
        rw [hfar, if_neg (by decide)] at hwaited
        split_ifs at hsince hwaited <;> omega

/-- Pulses with enough edges of the near clock between them find the crossing at rest. -/
theorem fresh_of_apart (hkeeps : c.KeepsUp) (hstretch : c.stretch 0 = 0)
    (hhead : (c.chain 0).headD false = false)
    (hapart : ∀ n, c.near n = true → c.pulse n = true → 2 * N ≤ c.sincePulse n) (n : ℕ) :
    c.fresh n = (c.near n && c.pulse n) := by
  have hfades : ∀ n, c.Fades n := by
    intro n
    induction n with
    | zero =>
        refine ⟨hstretch.le.trans (Nat.zero_le _), fun h => ?_⟩
        rw [hhead] at h
        cases h
    | succ n ih => exact ih.step
  rw [fresh]
  cases hpulse : c.near n && c.pulse n with
  | false => simp
  | true =>
      rw [Bool.and_eq_true] at hpulse
      have hlong := hapart n hpulse.1 hpulse.2
      have hfade := hfades n
      have hold := hfade.stretch
      have hlow : c.level n = false := by
        rw [level, decide_eq_false_iff_not, not_not]
        omega
      have hseen : (c.chain (n + 1)).headD false = false := by
        rw [c.chain_succ]
        split_ifs
        · exact hlow
        · refine Bool.eq_false_iff.mpr fun htrue => ?_
          have hbound := hfade.head htrue
          have hlimit := hkeeps n
          omega
      rw [hlow, hseen]
      rfl

end Crossing

end Clocked
