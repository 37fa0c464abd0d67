import Mathlib.Data.List.Basic
import Mathlib.Tactic.Common

/-!
# Text - scanners

A scanner reads a value from the beginning of a text and returns it with the rest of the text.
A scanner that stops at a separator reads the same value whatever follows the separator, so that
a text of separated tokens can be read one token after the other.

Main results:

- Theorem {lit}`StopsAt.map` and theorem {lit}`StopsAt.orElse`: scanners built from scanners
  that stop at a separator stop there.
- Theorem {lit}`StopsAt.not_mem`: a token that is read to its end has no separator in it.
- Theorem {lit}`StopsAt.scan_append`: a token is read alike at the end of the text and before a
  separator.
- Theorem {lit}`take_lines`: the beginning of a text of lines.
-/

namespace Scan

variable {σ α β : Type*}

/-! ## Scanners -/

/-- A value at the beginning of a text, and the rest of the text; {lit}`none` if there is no
value. -/
abbrev Scanner (σ α : Type*) : Type _ :=
  List σ → Option (α × List σ)

/-- What a scanner finds in front of the separator {lit}`c` does not depend on what follows. -/
def StopsAt (c : σ) (scan : Scanner σ α) : Prop :=
  ∀ text rest, scan (text ++ c :: rest) = (scan text).map fun (a, left) => (a, left ++ c :: rest)

/-- A token that the scanner reads to its end. -/
def Reads (scan : Scanner σ α) (token : List σ) (a : α) : Prop :=
  scan token = some (a, [])

/-! ## Runs of characters -/

section Runs

variable {p : σ → Bool} {c : σ} (hc : p c = false)

include hc

theorem takeWhile_stop (text rest : List σ) :
    (text ++ c :: rest).takeWhile p = text.takeWhile p := by
  induction text with
  | nil => rw [List.nil_append, List.takeWhile_cons, hc]; rfl
  | cons d text ih => rw [List.cons_append, List.takeWhile_cons, List.takeWhile_cons, ih]

theorem dropWhile_stop (text rest : List σ) :
    (text ++ c :: rest).dropWhile p = text.dropWhile p ++ c :: rest := by
  induction text with
  | nil => rw [List.nil_append, List.dropWhile_cons, hc]; rfl
  | cons d text ih =>
      rw [List.cons_append, List.dropWhile_cons, List.dropWhile_cons, ih]
      split_ifs <;> rfl

end Runs

/-! ## Separated lists -/

theorem intercalate_singleton (c : σ) (token : List σ) : [c].intercalate [token] = token := by
  simp [List.intercalate]

theorem intercalate_cons_cons (c : σ) (token token' : List σ) (tokens : List (List σ)) :
    [c].intercalate (token :: token' :: tokens) =
      token ++ c :: [c].intercalate (token' :: tokens) := by
  simp [List.intercalate]

/-- What is in no token and is not the separator is not in the list. -/
theorem not_mem_intercalate {c d : σ} (hd : c ≠ d) {tokens : List (List σ)}
    (htokens : ∀ token ∈ tokens, c ∉ token) : c ∉ [d].intercalate tokens := by
  induction tokens with
  | nil => exact List.not_mem_nil
  | cons token tokens ih =>
      have htoken := htokens token List.mem_cons_self
      have hrest := ih fun t ht => htokens t (List.mem_cons_of_mem _ ht)
      cases tokens with
      | nil => rwa [intercalate_singleton]
      | cons token' tokens =>
          rw [intercalate_cons_cons, List.mem_append, List.mem_cons]
          rintro (hmem | rfl | hmem)
          · exact htoken hmem
          · exact hd rfl
          · exact hrest hmem

/-- A list of lines, without the end of the last one. -/
theorem dropLast_flatMap_concat (c : σ) (lines : List (List σ)) :
    (lines.flatMap fun line => line ++ [c]).dropLast = [c].intercalate lines := by
  induction lines with
  | nil => rfl
  | cons line lines ih =>
      cases lines with
      | nil => simp
      | cons line' lines =>
          have hne : ((line' :: lines).flatMap fun line => line ++ [c]) ≠ [] := by simp
          rw [List.flatMap_cons, List.dropLast_append_of_ne_nil hne, ih, intercalate_cons_cons,
            List.append_assoc]
          rfl

/-- A list of lines, the last of them without its end. -/
theorem intercalate_concat (c : σ) (front : List (List σ)) (line : List σ) :
    [c].intercalate (front ++ [line]) = (front.flatMap fun line => line ++ [c]) ++ line := by
  rw [← dropLast_flatMap_concat, List.flatMap_append, List.flatMap_singleton, ← List.append_assoc,
    List.dropLast_concat]

/-- The beginning of a text consists of lines and of the beginning of one more line. -/
theorem take_lines (c : σ) (f : β → List σ) {lines : List β} {m : ℕ}
    (hm : m < (lines.flatMap fun line => f line ++ [c]).length) :
    ∃ front line back j, lines = front ++ line :: back ∧ j ≤ (f line).length ∧
      m = (front.flatMap fun line => f line ++ [c]).length + j ∧
      (lines.flatMap fun line => f line ++ [c]).take m =
        (front.flatMap fun line => f line ++ [c]) ++ (f line).take j := by
  induction lines generalizing m with
  | nil => exact absurd hm (Nat.not_lt_zero m)
  | cons line lines ih =>
      rw [List.flatMap_cons] at hm ⊢
      by_cases hline : m ≤ (f line).length
      · refine ⟨[], line, lines, m, rfl, hline, by simp, ?_⟩
        rw [List.append_assoc, List.take_append_of_le_length hline]
        rfl
      · have hlength : (f line ++ [c]).length ≤ m := by
          rw [List.length_append, List.length_singleton]
          omega
        rw [List.length_append] at hm
        rcases ih (m := m - (f line ++ [c]).length) (by omega) with
          ⟨front, next, back, j, rfl, hj, hlen, htake⟩
        refine ⟨line :: front, next, back, j, rfl, hj, ?_, ?_⟩
        · rw [List.flatMap_cons, List.length_append]
          omega
        · rw [List.take_append, List.take_of_length_le hlength, htake, List.flatMap_cons]
          exact (List.append_assoc _ _ _).symm

/-- The beginning of a separated list consists of tokens and of the beginning of one more. -/
theorem take_intercalate (c : σ) {tokens : List (List σ)} (hne : tokens ≠ []) {k : ℕ}
    (hk : k ≤ ([c].intercalate tokens).length) :
    ∃ front token back j, tokens = front ++ token :: back ∧ j ≤ token.length ∧
      k = (front.flatMap fun t => t ++ [c]).length + j ∧
      ([c].intercalate tokens).take k = [c].intercalate (front ++ [token.take j]) := by
  have hpos : 0 < (tokens.flatMap fun t => t ++ [c]).length := by
    rcases List.exists_cons_of_ne_nil hne with ⟨token, tokens, rfl⟩
    rw [List.flatMap_cons, List.length_append, List.length_append, List.length_singleton]
    omega
  rw [← dropLast_flatMap_concat, List.length_dropLast] at hk
  have hlt : k < (tokens.flatMap fun t => t ++ [c]).length := by omega
  rcases take_lines c id hlt with ⟨front, token, back, j, htokens, hj, hlength, htake⟩
  refine ⟨front, token, back, j, htokens, hj, hlength, ?_⟩
  rw [intercalate_concat, ← dropLast_flatMap_concat, List.dropLast_eq_take, List.take_take,
    Nat.min_eq_left hk]
  exact htake

/-! ## Composition -/

section Composition

variable {c : σ} {scan : Scanner σ α}

/-- A scanner that reads the value further. -/
theorem StopsAt.map (h : StopsAt c scan) (f : α → β) :
    StopsAt c fun text => (scan text).map fun (a, left) => (f a, left) := by
  intro text rest
  simp only [h text rest]
  cases scan text <;> rfl

/-- One scanner or the other. -/
theorem StopsAt.orElse {scan' : Scanner σ α} (h : StopsAt c scan) (h' : StopsAt c scan') :
    StopsAt c fun text => scan text <|> scan' text := by
  intro text rest
  simp only [h text rest, h' text rest]
  cases scan text <;> rfl

end Composition

/-! ## What is left -/

/-- What a scanner leaves is the end of the text. -/
def LeavesSuffix (scan : Scanner σ α) : Prop :=
  ∀ text a left, scan text = some (a, left) → left <:+ text

section LeavesSuffix

variable {scan : Scanner σ α}

theorem LeavesSuffix.map (h : LeavesSuffix scan) (f : α → β) :
    LeavesSuffix fun text => (scan text).map fun (a, left) => (f a, left) := by
  intro text b left hscan
  rcases Option.map_eq_some_iff.mp hscan with ⟨found, hfound, heq⟩
  cases heq
  exact h text found.1 found.2 hfound

theorem LeavesSuffix.orElse {scan' : Scanner σ α} (h : LeavesSuffix scan)
    (h' : LeavesSuffix scan') : LeavesSuffix fun text => scan text <|> scan' text := by
  intro text a left hscan
  cases hfirst : scan text with
  | none =>
      simp only [hfirst] at hscan
      exact h' text a left hscan
  | some found =>
      simp only [hfirst] at hscan
      cases hscan
      exact h text _ _ hfirst

end LeavesSuffix

/-! ## Tokens -/

section Tokens

variable {c : σ} {scan : Scanner σ α} {token : List σ} {a : α}

/-- A token that is read to its end has no separator in it. -/
theorem StopsAt.not_mem (h : StopsAt c scan) (htoken : Reads scan token a) : c ∉ token := by
  intro hmem
  rcases List.append_of_mem hmem with ⟨front, back, rfl⟩
  rw [Reads, h front back] at htoken
  cases hfront : scan front with
  | none =>
      rw [hfront] at htoken
      cases htoken
  | some found =>
      rw [hfront, Option.map_some, Option.some.injEq, Prod.mk.injEq] at htoken
      exact List.append_ne_nil_of_right_ne_nil _ (List.cons_ne_nil _ _) htoken.2

/-- A token is read alike at the end of the text and before a separator. -/
theorem StopsAt.scan_append (h : StopsAt c scan) (htoken : Reads scan token a) (rest : List σ) :
    scan (token ++ c :: rest) = some (a, c :: rest) := by
  rw [h token rest, htoken]
  rfl

end Tokens

end Scan
