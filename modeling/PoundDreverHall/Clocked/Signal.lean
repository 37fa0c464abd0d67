import Mathlib.Data.Nat.Count
import Mathlib.Order.Monotone.Basic
import PoundDreverHall.Clocked.Run

/-!
# Clocked systems - delayed signals, rising edges, latched commands

A word that crosses into a clock domain is delayed by a few registers, a level
in it is turned into an edge, and the word found at the edge is latched and
executed until the next one arrives.  This file has the three rules for such an
input path.

Main results:

- Theorem {lit}`risen_delayed`: delaying a signal delays its rising edges and
  adds none.
- Theorem {lit}`risen_held`: holding each word for some cycles keeps the list
  of rising words.
- Theorem {lit}`held_eq_foldl`: executing a latched command again and again is
  executing it once, if executing it twice is.
-/

namespace Clocked

variable {α σ : Type*}

/-! ## Delay -/

/-- A signal behind {lit}`d` registers that all start at {lit}`idle`. -/
def delayed (d : ℕ) (idle : α) (x : ℕ → α) (n : ℕ) : α :=
  if n < d then idle else x (n - d)

theorem delayed_of_lt {d n : ℕ} (idle : α) (x : ℕ → α) (h : n < d) :
    delayed d idle x n = idle :=
  if_pos h

@[simp]
theorem delayed_add (d : ℕ) (idle : α) (x : ℕ → α) (n : ℕ) :
    delayed d idle x (n + d) = x n := by
  rw [delayed, if_neg (by omega), Nat.add_sub_cancel]

theorem delayed_succ_succ (d : ℕ) (idle : α) (x : ℕ → α) (n : ℕ) :
    delayed (d + 1) idle x (n + 1) = delayed d idle x n := by
  simp [delayed]

/-- One more register is one more delay. -/
theorem eq_delayed_succ {d : ℕ} {idle : α} {x r : ℕ → α} (hzero : r 0 = idle)
    (hsucc : ∀ n, r (n + 1) = delayed d idle x n) (n : ℕ) : r n = delayed (d + 1) idle x n := by
  cases n with
  | zero => rw [hzero, delayed_of_lt idle x (Nat.succ_pos d)]
  | succ n => rw [hsucc, delayed_succ_succ]

/-! ## Rising edges -/

/-- The level before cycle {lit}`n`; low before the first cycle. -/
def levelBefore (bit : α → Bool) (x : ℕ → α) : ℕ → Bool
  | 0 => false
  | n + 1 => bit (x n)

/-- The level rises in cycle {lit}`n`. -/
def rise (bit : α → Bool) (x : ℕ → α) (n : ℕ) : Bool :=
  bit (x n) && !levelBefore bit x n

/-- The words found at the rising edges of the first {lit}`n` cycles. -/
def risen (bit : α → Bool) (x : ℕ → α) (n : ℕ) : List α :=
  log (fun k => if rise bit x k then [x k] else []) n

theorem risen_succ (bit : α → Bool) (x : ℕ → α) (n : ℕ) :
    risen bit x (n + 1) = risen bit x n ++ if rise bit x n then [x n] else [] :=
  log_succ _ n

/-- A list of words can be cut wherever the level does not stay high. -/
theorem risen_add {bit : α → Bool} {x : ℕ → α} {d : ℕ}
    (hcut : bit (x d) = true → levelBefore bit x d = false) (n : ℕ) :
    risen bit x (d + n) = risen bit x d ++ risen bit (fun k => x (d + k)) n := by
  rw [risen, log_add]
  refine congrArg (risen bit x d ++ ·) (log_eq_of_forall fun k _ => ?_)
  have hrise : rise bit x (d + k) = rise bit (fun k => x (d + k)) k := by
    cases k with
    | zero =>
        rw [rise, rise, Nat.add_zero]
        cases hlevel : bit (x d) with
        | false => rfl
        | true => rw [hcut hlevel]; rfl
    | succ k => rfl
  rw [hrise]

section Delayed

variable {bit : α → Bool} {idle : α} (x : ℕ → α)

theorem rise_delayed_of_lt {d n : ℕ} (hidle : bit idle = false) (h : n < d) :
    rise bit (delayed d idle x) n = false := by
  rw [rise, delayed_of_lt idle x h, hidle, Bool.false_and]

theorem rise_delayed (hidle : bit idle = false) (d n : ℕ) :
    rise bit (delayed d idle x) (n + d) = rise bit x n := by
  rw [rise, rise, delayed_add]
  congr 2
  cases n with
  | zero =>
      cases d with
      | zero => rfl
      | succ d => simp [levelBefore, delayed_of_lt idle x (Nat.lt_succ_self d), hidle]
  | succ n =>
      rw [Nat.add_right_comm, levelBefore, delayed_add]
      rfl

/-- A delayed signal rises where the signal rises, later. -/
theorem risen_delayed (hidle : bit idle = false) (d n : ℕ) :
    risen bit (delayed d idle x) (n + d) = risen bit x n := by
  rw [risen, Nat.add_comm n d, log_add, log_eq_nil, List.nil_append, risen]
  · refine log_eq_of_forall fun k _ => ?_
    rw [Nat.add_comm d k, rise_delayed x hidle, delayed_add]
  · intro k hk
    rw [rise_delayed_of_lt x hidle hk]
    rfl

end Delayed

/-- Each word of a stream is on the bus for one or more cycles: {lit}`idx n` is
the number of the word seen in cycle {lit}`n`. -/
structure Held (idx : ℕ → ℕ) : Prop where
  zero : idx 0 = 0
  succ : ∀ n, idx (n + 1) = idx n ∨ idx (n + 1) = idx n + 1

theorem Held.monotone {idx : ℕ → ℕ} (h : Held idx) : Monotone idx := by
  apply monotone_nat_of_le_succ
  intro n
  rcases h.succ n with hstay | hmove <;> omega

/-- A held index takes every value up to the ones it reaches. -/
theorem Held.exists_eq {idx : ℕ → ℕ} (h : Held idx) {k n : ℕ} (hk : k ≤ idx n) :
    ∃ m ≤ n, idx m = k := by
  induction n with
  | zero =>
      rw [h.zero] at hk
      exact ⟨0, Nat.le_refl 0, by rw [h.zero, Nat.le_zero.mp hk]⟩
  | succ n ih =>
      by_cases hbefore : k ≤ idx n
      · rcases ih hbefore with ⟨m, hm, hmk⟩
        exact ⟨m, Nat.le_succ_of_le hm, hmk⟩
      · refine ⟨n + 1, Nat.le_refl _, ?_⟩
        rcases h.succ n with hstay | hmove <;> omega

/-- It takes each of them for the first time. -/
theorem Held.exists_first {idx : ℕ → ℕ} (h : Held idx) {k n : ℕ} (hk : k ≤ idx n) :
    ∃ m ≤ n, idx m = k ∧ ∀ j < m, idx j < k := by
  induction n with
  | zero =>
      rcases h.exists_eq hk with ⟨m, hm, hmk⟩
      exact ⟨m, hm, hmk, fun j hj => absurd hj (by omega)⟩
  | succ n ih =>
      by_cases hbefore : k ≤ idx n
      · rcases ih hbefore with ⟨m, hm, hmk, hfirst⟩
        exact ⟨m, Nat.le_succ_of_le hm, hmk, hfirst⟩
      · have hmove : idx (n + 1) = k := by
          rcases h.succ n with hstay | hmove <;> omega
        refine ⟨n + 1, Nat.le_refl _, hmove, fun j hj => ?_⟩
        have hmono := h.monotone (Nat.le_of_lt_succ hj)
        omega

/-- A held stream has the rising words of the stream, in order. -/
theorem risen_held {idx : ℕ → ℕ} (h : Held idx) (bit : α → Bool) (words : ℕ → α) (n : ℕ) :
    risen bit (fun k => words (idx k)) (n + 1) = risen bit words (idx n + 1) := by
  induction n with
  | zero =>
      rw [risen_succ, h.zero, risen_succ]
      simp [risen, rise, levelBefore, h.zero]
  | succ n ih =>
      rw [risen_succ, ih]
      rcases h.succ n with hsame | hnext
      · simp [rise, levelBefore, hsame]
      · rw [hnext, risen_succ bit words (idx n + 1)]
        simp [rise, levelBefore, hnext]

/-- Before any cycle after a high one there is a last high cycle. -/
theorem exists_last_high {x : ℕ → Bool} {c k : ℕ} (hc : x c = true) (hck : c < k) :
    ∃ j, c ≤ j ∧ j < k ∧ x j = true ∧ ∀ i, j < i → i < k → x i = false := by
  induction k, hck using Nat.le_induction with
  | base => exact ⟨c, Nat.le_refl c, Nat.lt_succ_self c, hc, fun i hci hik => by omega⟩
  | succ k hck ih =>
      cases hk : x k with
      | true => exact ⟨k, by omega, Nat.lt_succ_self k, hk, fun i hki hik => by omega⟩
      | false =>
          rcases ih with ⟨j, hcj, hjk, hj, hlow⟩
          refine ⟨j, hcj, by omega, hj, fun i hji hik => ?_⟩
          rcases Nat.lt_succ_iff_lt_or_eq.mp hik with hlt | rfl
          · exact hlow i hji hlt
          · exact hk

/-! ## Counting -/

/-- Number of cycles among the first {lit}`n` in which the signal is high. -/
def cycles (x : ℕ → Bool) (n : ℕ) : ℕ :=
  Nat.count (fun k => x k = true) n

/-- Number of pulses, maximal stretches of high cycles, begun in the first
{lit}`n` cycles. -/
def pulses (x : ℕ → Bool) (n : ℕ) : ℕ :=
  cycles (rise id x) n

@[simp]
theorem cycles_zero (x : ℕ → Bool) : cycles x 0 = 0 :=
  rfl

theorem cycles_succ (x : ℕ → Bool) (n : ℕ) :
    cycles x (n + 1) = cycles x n + if x n then 1 else 0 :=
  Nat.count_succ _ n

/-- Inclusion and exclusion of two signals. -/
theorem cycles_or_add_and (x y : ℕ → Bool) (n : ℕ) :
    cycles (fun k => x k || y k) n + cycles (fun k => x k && y k) n =
      cycles x n + cycles y n := by
  induction n with
  | zero => rfl
  | succ n ih =>
      rw [cycles_succ, cycles_succ, cycles_succ, cycles_succ]
      cases x n <;> cases y n <;> simp <;> omega

/-- A stretch of high cycles has one beginning. -/
theorem pulses_add_cycles (x : ℕ → Bool) (n : ℕ) :
    pulses x n + cycles (fun k => x k && levelBefore id x k) n = cycles x n := by
  induction n with
  | zero => rfl
  | succ n ih =>
      rw [pulses] at ih ⊢
      rw [cycles_succ, cycles_succ, cycles_succ, rise]
      cases x n <;> cases levelBefore id x n <;> simp <;> omega

theorem cycles_congr {x y : ℕ → Bool} {n : ℕ} (h : ∀ k < n, x k = y k) :
    cycles x n = cycles y n := by
  induction n with
  | zero => rfl
  | succ n ih =>
      rw [cycles_succ, cycles_succ, h n (Nat.lt_succ_self n),
        ih fun k hk => h k (Nat.lt_succ_of_lt hk)]

/-- A delayed signal is high as often, later. -/
theorem cycles_delayed (x : ℕ → Bool) (d n : ℕ) :
    cycles (delayed d false x) (n + d) = cycles x n := by
  induction n with
  | zero =>
      have hlow : ∀ k < d, ¬delayed d false x k = true := by
        intro k hk
        rw [delayed_of_lt false x hk]
        exact Bool.false_ne_true
      rw [Nat.zero_add, cycles_zero]
      exact Nat.count_iff_forall_not.mpr hlow
  | succ n ih => rw [Nat.add_right_comm, cycles_succ, cycles_succ, ih, delayed_add]

/-- The rises of a delayed signal are those of the signal, delayed. -/
theorem rise_delayed_eq (x : ℕ → Bool) (d : ℕ) :
    rise id (delayed d false x) = delayed d false (rise id x) := by
  ext k
  rcases Nat.lt_or_ge k d with hlt | hge
  · rw [rise_delayed_of_lt x rfl hlt, delayed_of_lt false _ hlt]
  · obtain ⟨j, rfl⟩ := Nat.exists_eq_add_of_le' hge
    rw [rise_delayed x rfl, delayed_add]

/-- Delaying keeps the pulses. -/
theorem pulses_delayed (x : ℕ → Bool) (d n : ℕ) :
    pulses (delayed d false x) (n + d) = pulses x n := by
  rw [pulses, rise_delayed_eq, cycles_delayed, pulses]

/-! ## Latched commands -/

section Latched

variable (exec : α → σ → σ) (load : ℕ → Option α)

/-- The commands loaded in the first {lit}`n` cycles. -/
def loaded (n : ℕ) : List α :=
  log (fun k => (load k).toList) n

variable {exec load}

theorem loaded_succ (n : ℕ) : loaded load (n + 1) = loaded load n ++ (load n).toList :=
  log_succ _ n

/-- The latch holds the last command loaded. -/
theorem latch_eq_getLastD {a : ℕ → α} (ha : ∀ n, a (n + 1) = (load n).getD (a n)) (n : ℕ) :
    a n = (loaded load n).getLastD (a 0) := by
  induction n with
  | zero => rfl
  | succ n ih =>
      rw [ha, loaded_succ]
      cases load n with
      | none => simpa using ih
      | some w => simp

/-- A file that executes the latched command in every cycle is, one cycle after
the latch, the fold of the commands loaded so far. -/
theorem held_eq_foldl (hidem : ∀ w c, exec w (exec w c) = exec w c) {a : ℕ → α} {c : ℕ → σ}
    (ha : ∀ n, a (n + 1) = (load n).getD (a n)) (hc : ∀ n, c (n + 1) = exec (a n) (c n))
    (n : ℕ) :
    c (n + 1) = (loaded load n).foldl (fun c w => exec w c) (exec (a 0) (c 0)) := by
  induction n with
  | zero => exact hc 0
  | succ n ih =>
      rw [hc, ha, loaded_succ, List.foldl_append]
      cases hload : load n with
      | none =>
          -- the same command again
          have hsame : exec (a n) (c (n + 1)) = c (n + 1) := by
            rw [hc, hidem]
          simpa [hsame] using ih
      | some w => simpa using congrArg (exec w) ih

end Latched

/-! ## Sequences -/

/-- The signal shows the words of the list in order, each for one or more cycles, and
then stays at the last one. -/
def Carries (x : ℕ → α) (words : List α) : Prop :=
  ∃ idx, Held idx ∧ (∀ n, words[idx n]? = some (x n)) ∧ ∃ n, idx n + 1 = words.length

/-- The signal carries the words, and shows the last one by cycle {lit}`n`. -/
def CarriesBy (x : ℕ → α) (words : List α) (n : ℕ) : Prop :=
  ∃ idx, Held idx ∧ (∀ k, words[idx k]? = some (x k)) ∧ idx n + 1 = words.length

theorem carries_iff {x : ℕ → α} {words : List α} : Carries x words ↔ ∃ n, CarriesBy x words n := by
  constructor
  · rintro ⟨idx, hidx, hwords, n, hn⟩
    exact ⟨n, idx, hidx, hwords, hn⟩
  · rintro ⟨n, idx, hidx, hwords, hn⟩
    exact ⟨idx, hidx, hwords, n, hn⟩

section CarriesBy

variable {x : ℕ → α} {u v words : List α} {n : ℕ}

theorem CarriesBy.mem (h : CarriesBy x words n) (k : ℕ) : x k ∈ words := by
  rcases h with ⟨idx, -, hwords, -⟩
  exact List.mem_of_getElem? (hwords k)

/-- It still shows the last word later. -/
theorem CarriesBy.mono (h : CarriesBy x words n) {m : ℕ} (hm : n ≤ m) : CarriesBy x words m := by
  rcases h with ⟨idx, hidx, hwords, hn⟩
  have hmono : idx n ≤ idx m := hidx.monotone hm
  have hbound : idx m < words.length := (List.getElem?_eq_some_iff.mp (hwords m)).1
  exact ⟨idx, hidx, hwords, by omega⟩

/-- From then on the signal stays at the last word. -/
theorem CarriesBy.eq_of_le (h : CarriesBy x words n) {k : ℕ} (hk : n ≤ k) : x k = x n := by
  rcases h with ⟨idx, hidx, hwords, hn⟩
  have hmono : idx n ≤ idx k := hidx.monotone hk
  have hbound : idx k < words.length := (List.getElem?_eq_some_iff.mp (hwords k)).1
  have hnext := hwords k
  rw [show idx k = idx n by omega, hwords n] at hnext
  exact (Option.some.inj hnext).symm

/-- A word may be shown before. -/
theorem CarriesBy.cons (h : CarriesBy (fun k => x (k + 1)) words n) :
    CarriesBy x (x 0 :: words) (n + 1) := by
  rcases h with ⟨idx, hidx, hwords, hn⟩
  refine ⟨fun k => k.casesOn 0 fun k => idx k + 1, ⟨rfl, fun k => ?_⟩, fun k => ?_, ?_⟩
  · cases k with
    | zero => exact .inr (congrArg (· + 1) hidx.zero)
    | succ k => simpa using hidx.succ k
  · cases k with
    | zero => rfl
    | succ k => exact hwords k
  · exact congrArg (· + 1) hn

/-- The first word may be shown for one more cycle. -/
theorem CarriesBy.hold (h : CarriesBy (fun k => x (k + 1)) words n)
    (hzero : words[0]? = some (x 0)) : CarriesBy x words (n + 1) := by
  rcases h with ⟨idx, hidx, hwords, hn⟩
  refine ⟨fun k => idx (k - 1), ⟨hidx.zero, fun k => ?_⟩, fun k => ?_, hn⟩
  · cases k with
    | zero => exact .inl rfl
    | succ k => exact hidx.succ k
  · cases k with
    | zero => exact (congrArg (words[·]?) hidx.zero).trans hzero
    | succ k => exact hwords k

/-- The words of the first of two lists come first. -/
theorem CarriesBy.split (hv : v ≠ []) (h : CarriesBy x (u ++ v) n) :
    ∃ k m, k + m = n ∧ u.length ≤ k ∧ (∀ j < k, x j ∈ u) ∧
      CarriesBy (fun j => x (k + j)) v m := by
  rcases h with ⟨idx, hidx, hwords, hn⟩
  have hpos := List.length_pos_iff.mpr hv
  rw [List.length_append] at hn
  rcases hidx.exists_first (show u.length ≤ idx n by omega) with ⟨k, hkn, hk, hbefore⟩
  have hlate : ∀ j, u.length ≤ idx (k + j) := fun j =>
    hk ▸ hidx.monotone (Nat.le_add_right k j)
  have hslow : ∀ j, idx j ≤ j := by
    intro j
    induction j with
    | zero => exact Nat.le_of_eq hidx.zero
    | succ j ih => rcases hidx.succ j with hstay | hmove <;> omega
  refine ⟨k, n - k, by omega, hk ▸ hslow k, fun j hj => ?_, fun j => idx (k + j) - u.length,
    ⟨?_, fun j => ?_⟩, fun j => ?_, ?_⟩
  · have hword := hwords j
    rw [List.getElem?_append_left (hbefore j hj)] at hword
    exact List.mem_of_getElem? hword
  · rw [Nat.add_zero, hk, Nat.sub_self]
  · have hstep := hidx.succ (k + j)
    have hj := hlate j
    rw [Nat.add_assoc] at hstep
    omega
  · have hword := hwords (k + j)
    rwa [List.getElem?_append_right (hlate j)] at hword
  · change idx (k + (n - k)) - u.length + 1 = v.length
    rw [Nat.add_sub_cancel' hkn]
    omega

end CarriesBy

/-- Every list of words can be shown, each word for one cycle. -/
theorem exists_carries {words : List α} (h : words ≠ []) : ∃ x, Carries x words := by
  have hpos := List.length_pos_iff.mpr h
  have hlt : ∀ n, min n (words.length - 1) < words.length := by
    intro n
    omega
  refine ⟨fun n => words.get ⟨min n (words.length - 1), hlt n⟩,
    fun n => min n (words.length - 1), ⟨Nat.zero_min _, fun n => ?_⟩,
    fun n => List.getElem?_eq_getElem (hlt n), words.length - 1, ?_⟩
  · omega
  · simp only [Nat.min_self]
    exact Nat.sub_add_cancel hpos

/-- A sequence may begin one cycle later. -/
theorem Carries.of_succ {x : ℕ → α} {words : List α} (h : Carries (fun n => x (n + 1)) words)
    (hzero : words[0]? = some (x 0)) : Carries x words := by
  rcases carries_iff.mp h with ⟨n, hn⟩
  exact carries_iff.mpr ⟨n + 1, hn.hold hzero⟩

/-- Without its first cycle, a signal carries the same words or all but the first. -/
theorem Carries.succ {x : ℕ → α} {u v : α} {words : List α} (h : Carries x (u :: v :: words)) :
    Carries (fun n => x (n + 1)) (u :: v :: words) ∨
      Carries (fun n => x (n + 1)) (v :: words) := by
  rcases h with ⟨idx, hidx, hwords, last, hlast⟩
  cases last with
  | zero =>
      rw [hidx.zero] at hlast
      simp at hlast
  | succ last =>
      have hfirst : idx 1 = 0 ∨ idx 1 = 1 := by
        simpa [hidx.zero] using hidx.succ 0
      rcases hfirst with hstay | hmove
      · exact .inl ⟨fun n => idx (n + 1), ⟨hstay, fun n => hidx.succ (n + 1)⟩,
          fun n => hwords (n + 1), last, hlast⟩
      · have hpos : ∀ n, 0 < idx (n + 1) := by
          intro n
          induction n with
          | zero => exact Nat.lt_of_sub_eq_succ hmove
          | succ n ih =>
              rcases hidx.succ (n + 1) with hsame | hnext <;> omega
        refine .inr ⟨fun n => idx (n + 1) - 1, ⟨?_, fun n => ?_⟩, fun n => ?_, last, ?_⟩
        · exact Nat.sub_eq_zero_of_le (Nat.le_of_eq hmove)
        · have hn := hpos n
          rcases hidx.succ (n + 1) with hsame | hnext <;> omega
        · have hn := hwords (n + 1)
          rwa [← Nat.sub_add_cancel (hpos n), List.getElem?_cons_succ] at hn
        · have hn := hpos last
          simp only [List.length_cons] at hlast ⊢
          omega

/-- A latch carries what it started with, then what it loads. -/
theorem carries_of_loaded {load : ℕ → Option α} {a : ℕ → α}
    (ha : ∀ n, a (n + 1) = (load n).getD (a n)) {n : ℕ}
    (hend : ∀ k, n ≤ k → loaded load k = loaded load n) :
    Carries a (a 0 :: loaded load n) := by
  have hheld : Held fun k => (loaded load k).length := by
    refine ⟨rfl, fun k => ?_⟩
    rw [loaded_succ, List.length_append]
    cases load k <;> simp
  have hinit : ∀ k, loaded load k <+: loaded load n := by
    intro k
    by_cases hk : n ≤ k
    · rw [hend k hk]
    · obtain ⟨d, rfl⟩ := Nat.exists_eq_add_of_le (Nat.le_of_not_le hk)
      rw [loaded, loaded, log_add]
      exact List.prefix_append _ _
  refine ⟨fun k => (loaded load k).length, hheld, fun k => ?_, n, rfl⟩
  change (a 0 :: loaded load n)[(loaded load k).length]? = some (a k)
  rw [latch_eq_getLastD ha k]
  rcases List.eq_nil_or_concat (loaded load k) with hnil | ⟨l, w, hl⟩
  · simp [hnil]
  · rcases hinit k with ⟨rest, hrest⟩
    rw [← hrest, hl]
    simp

/-- What is left after the first {lit}`k` commands of a list. -/
def after (exec : α → σ → σ) (cmds : List α) (c : σ) (k : ℕ) : σ :=
  (cmds.take k).foldl (fun c w => exec w c) c

@[simp]
theorem after_nil (exec : α → σ → σ) (c : σ) (k : ℕ) : after exec [] c k = c := by
  rw [after, List.take_nil, List.foldl_nil]

theorem after_length (exec : α → σ → σ) (cmds : List α) (c : σ) :
    after exec cmds c cmds.length = cmds.foldl (fun c w => exec w c) c := by
  rw [after, List.take_length]

theorem after_succ {exec : α → σ → σ} {cmds : List α} {k : ℕ} {w : α}
    (h : cmds[k]? = some w) (c : σ) :
    after exec cmds c (k + 1) = exec w (after exec cmds c k) := by
  rw [after, after, List.take_add_one, h, List.foldl_append]
  rfl

/-- What every command of a list keeps holds after every prefix. -/
theorem after_invariant {exec : α → σ → σ} {Q : σ → Prop} {cmds : List α} {c : σ} (hzero : Q c)
    (hkeep : ∀ w ∈ cmds, ∀ c, Q c → Q (exec w c)) (k : ℕ) : Q (after exec cmds c k) := by
  induction k with
  | zero => exact hzero
  | succ k ih =>
      rcases hword : cmds[k]? with _ | w
      · have hend := List.getElem?_eq_none_iff.mp hword
        rw [after, List.take_of_length_le hend] at ih
        rwa [after, List.take_of_length_le (Nat.le_succ_of_le hend)]
      · rw [after_succ hword]
        exact hkeep w (List.mem_of_getElem? hword) _ ih

theorem after_append_left {exec : α → σ → σ} {cmds : List α} {k : ℕ} (hk : k ≤ cmds.length)
    (cmds' : List α) (c : σ) : after exec (cmds ++ cmds') c k = after exec cmds c k := by
  rw [after, after, List.take_append_of_le_length hk]

theorem after_append_right (exec : α → σ → σ) (cmds cmds' : List α) (c : σ) (k : ℕ) :
    after exec (cmds ++ cmds') c (cmds.length + k) =
      after exec cmds' (after exec cmds c cmds.length) k := by
  rw [after, after, after, List.take_append, List.foldl_append,
    List.take_of_length_le (Nat.le_add_right _ k), List.take_length, Nat.add_sub_cancel_left]

/-- Commands may be replaced by others of the same effect. -/
theorem after_map {exec : α → σ → σ} {f : α → α} (h : ∀ w c, exec (f w) c = exec w c)
    (cmds : List α) (c : σ) (k : ℕ) : after exec (cmds.map f) c k = after exec cmds c k := by
  rw [after, after, ← List.map_take, List.foldl_map]
  simp only [h]

/-- A file that executes the word it is shown in every cycle executes every word of a
carried list once, in order. -/
theorem eq_after_of_carries {exec : α → σ → σ} (hidem : ∀ w c, exec w (exec w c) = exec w c)
    {a : ℕ → α} {c : ℕ → σ} (hc : ∀ n, c (n + 1) = exec (a n) (c n)) {cmds : List α}
    {idx : ℕ → ℕ} (hidx : Held idx) (hcmds : ∀ n, cmds[idx n]? = some (a n)) (n : ℕ) :
    c (n + 1) = after exec cmds (c 0) (idx n + 1) := by
  induction n with
  | zero =>
      rw [hc, after_succ (hcmds 0), hidx.zero]
      rfl
  | succ n ih =>
      rw [hc]
      rcases hidx.succ n with hstay | hmove
      · have hsame : a (n + 1) = a n := by
          have hnext := hcmds (n + 1)
          rw [hstay, hcmds n] at hnext
          exact (Option.some.inj hnext).symm
        rw [hsame, hstay, ← ih, hc, hidem]
      · rw [ih, after_succ (hcmds (n + 1)), hmove]

/-- What holds after every prefix of two lists holds after every prefix of the first,
and of the second from where the first one ends. -/
theorem forall_after_append {exec : α → σ → σ} {Q : σ → Prop} (cmds cmds' : List α) (c : σ) :
    (∀ k, Q (after exec (cmds ++ cmds') c k)) ↔
      (∀ k, Q (after exec cmds c k)) ∧
        ∀ k, Q (after exec cmds' (after exec cmds c cmds.length) k) := by
  constructor
  · intro h
    refine ⟨fun k => ?_, fun k => after_append_right exec cmds cmds' c k ▸ h _⟩
    by_cases hk : k ≤ cmds.length
    · exact after_append_left hk cmds' c ▸ h k
    · have hall : after exec cmds c k = after exec cmds c cmds.length := by
        rw [after_length, after, List.take_of_length_le (by omega)]
      exact hall ▸ after_append_left (Nat.le_refl _) cmds' c ▸ h _
  · rintro ⟨h, h'⟩ k
    by_cases hk : k ≤ cmds.length
    · exact (after_append_left hk cmds' c).symm ▸ h k
    · have hsplit := after_append_right exec cmds cmds' c (k - cmds.length)
      rw [Nat.add_sub_cancel' (by omega)] at hsplit
      exact hsplit.symm ▸ h' _

end Clocked
