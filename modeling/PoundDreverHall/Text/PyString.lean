import Mathlib.Data.List.DropRight
import Mathlib.Data.Int.Notation
import Mathlib.Tactic.Common

/-!
# Text - strings as Python splits them

Python removes white space at both ends of a string, splits a text at line breaks of several
kinds, and reads a number with underscores between its digits.

Main results:

- Theorem {lit}`splitlines_append`: a newline separates the lines before it from those after.
- Theorem {lit}`splitlines_strip`: stripping a text that ends with a newline keeps its lines.
- Theorem {lit}`splitlines_flatMap`: lines that are joined by newlines are split again.
- Theorem {lit}`int_digits`: a number is read back from its digits.
-/

namespace PyString

/-! ## White space -/

/-- `str.isspace` on a character. -/
def isSpace (c : Char) : Bool :=
  let n := c.toNat
  (0x09 ≤ n && n ≤ 0x0D) || (0x1C ≤ n && n ≤ 0x20) || n = 0x85 || n = 0xA0 || n = 0x1680 ||
    (0x2000 ≤ n && n ≤ 0x200A) || n = 0x2028 || n = 0x2029 || n = 0x202F || n = 0x205F ||
    n = 0x3000

/-- `str.strip`. -/
def strip (s : List Char) : List Char :=
  (s.dropWhile isSpace).rdropWhile isSpace

/-- A string without white space at its ends. -/
theorem strip_eq_self {s : List Char} (hfirst : ∀ c ∈ s.head?, isSpace c = false)
    (hlast : ∀ c ∈ s.getLast?, isSpace c = false) : strip s = s := by
  have hdrop : s.dropWhile isSpace = s := by
    cases s with
    | nil => rfl
    | cons c s => rw [List.dropWhile_cons, hfirst c rfl, if_neg Bool.false_ne_true]
  rw [strip, hdrop, List.rdropWhile_eq_self_iff]
  intro hs
  have hc := hlast (s.getLast hs) (List.getLast?_eq_some_getLast hs)
  rw [hc]
  exact Bool.false_ne_true

theorem strip_of_forall {s : List Char} (h : ∀ c ∈ s, isSpace c = false) : strip s = s :=
  strip_eq_self (fun c hc => h c (List.mem_of_mem_head? hc))
    fun c hc => h c (List.mem_of_mem_getLast? hc)

/-- White space at the end is dropped. -/
theorem strip_concat {s : List Char} {c : Char} (hc : isSpace c = true)
    (hfirst : ∃ d ∈ s.head?, isSpace d = false) : strip (s ++ [c]) = strip s := by
  rcases hfirst with ⟨d, hd, hspace⟩
  cases s with
  | nil => exact absurd hd nofun
  | cons e s =>
      obtain rfl : e = d := Option.some.inj hd
      rw [strip, strip, List.cons_append, List.dropWhile_cons, List.dropWhile_cons, hspace,
        if_neg Bool.false_ne_true, if_neg Bool.false_ne_true, ← List.cons_append,
        List.rdropWhile_concat_pos _ _ _ hc]

/-! ## Lines -/

/-- A line break; the pair of carriage return and newline counts as one. -/
def isLineBreak (c : Char) : Bool :=
  let n := c.toNat
  (0x0A ≤ n && n ≤ 0x0D) || (0x1C ≤ n && n ≤ 0x1E) || n = 0x85 || n = 0x2028 || n = 0x2029

/-- The lines of a text that follows {lit}`line`.  The flag says whether the character before was
a carriage return. -/
def linesFrom (afterReturn : Bool) (line : List Char) : List Char → List (List Char)
  | [] => if line = [] then [] else [line]
  | c :: cs =>
      if afterReturn && c = '\n' then linesFrom false [] cs
      else if isLineBreak c then line :: linesFrom (c = '\r') [] cs
      else linesFrom false (line ++ [c]) cs

/-- `str.splitlines`. -/
def splitlines (text : List Char) : List (List Char) :=
  linesFrom false [] text

theorem isSpace_of_isLineBreak {c : Char} (h : isLineBreak c = true) : isSpace c = true := by
  simp only [isLineBreak, Bool.or_eq_true, Bool.and_eq_true, decide_eq_true_eq] at h
  simp only [isSpace, Bool.or_eq_true, Bool.and_eq_true, decide_eq_true_eq]
  omega

theorem linesFrom_append (afterReturn : Bool) (line xs ys : List Char) :
    linesFrom afterReturn line (xs ++ '\n' :: ys) =
      linesFrom afterReturn line (xs ++ ['\n']) ++ linesFrom false [] ys := by
  induction xs generalizing afterReturn line with
  | nil =>
      have hbreak : isLineBreak '\n' = true := rfl
      cases afterReturn with
      | true => rfl
      | false =>
          simp only [List.nil_append, linesFrom, hbreak]
          rfl
  | cons c xs ih =>
      simp only [List.cons_append, linesFrom]
      split_ifs
      · exact ih _ _
      · rw [ih, List.cons_append]
      · exact ih _ _

/-- A newline separates the lines before it from those after. -/
theorem splitlines_append (xs ys : List Char) :
    splitlines (xs ++ '\n' :: ys) = splitlines (xs ++ ['\n']) ++ splitlines ys :=
  linesFrom_append false [] xs ys

/-- A newline at the end ends the last line. -/
theorem linesFrom_concat {afterReturn : Bool} {line xs : List Char}
    (hlast : ∃ c ∈ xs.getLast?, isLineBreak c = false) :
    linesFrom afterReturn line (xs ++ ['\n']) = linesFrom afterReturn line xs := by
  induction xs generalizing afterReturn line with
  | nil =>
      rcases hlast with ⟨c, hc, -⟩
      exact absurd hc nofun
  | cons c xs ih =>
      cases xs with
      | nil =>
          rcases hlast with ⟨d, hd, hbreak⟩
          obtain rfl : c = d := Option.some.inj hd
          have hnewline : c ≠ '\n' := by
            rintro rfl
            exact absurd hbreak (by decide)
          simp [linesFrom, hbreak, hnewline, show isLineBreak '\n' = true from rfl]
      | cons d xs =>
          have hrest : ∃ c ∈ (d :: xs).getLast?, isLineBreak c = false := by
            rwa [List.getLast?_cons_cons] at hlast
          rw [List.cons_append, linesFrom, linesFrom]
          rw [ih hrest, ih hrest, ih hrest]

/-- Stripping a text that ends with a newline keeps its lines, if no other white space is at its
ends. -/
theorem splitlines_strip {text : List Char} (hfirst : ∃ c ∈ text.head?, isSpace c = false)
    (hlast : ∃ c ∈ text.getLast?, isSpace c = false) :
    splitlines (strip (text ++ ['\n'])) = splitlines (text ++ ['\n']) := by
  have hstrip : strip text = text := by
    rcases hfirst with ⟨c, hc, hspace⟩
    rcases hlast with ⟨d, hd, hspace'⟩
    refine strip_eq_self (fun c' hc' => ?_) fun d' hd' => ?_
    · rwa [Option.mem_unique hc' hc]
    · rwa [Option.mem_unique hd' hd]
  rw [strip_concat rfl hfirst, hstrip, splitlines, splitlines, linesFrom_concat]
  rcases hlast with ⟨d, hd, hspace⟩
  refine ⟨d, hd, ?_⟩
  by_contra hbreak
  exact absurd (isSpace_of_isLineBreak (eq_true_of_ne_false hbreak)) (by rw [hspace]; decide)

theorem linesFrom_line {line : List Char} (hline : ∀ c ∈ line, isLineBreak c = false)
    (before ys : List Char) :
    linesFrom false before (line ++ '\n' :: ys) = (before ++ line) :: linesFrom false [] ys := by
  induction line generalizing before with
  | nil =>
      rw [List.append_nil]
      rfl
  | cons c line ih =>
      have hc := hline c List.mem_cons_self
      have hrest := ih (fun d hd => hline d (List.mem_cons_of_mem _ hd)) (before ++ [c])
      rw [List.cons_append, linesFrom, hc]
      simpa using hrest

/-- Lines that are joined by newlines are split again. -/
theorem splitlines_flatMap {lines : List (List Char)}
    (hlines : ∀ line ∈ lines, ∀ c ∈ line, isLineBreak c = false) :
    splitlines (lines.flatMap fun line => line ++ ['\n']) = lines := by
  induction lines with
  | nil => rfl
  | cons line lines ih =>
      have hrest := ih fun l hl => hlines l (List.mem_cons_of_mem _ hl)
      have hline := linesFrom_line (hlines line List.mem_cons_self) []
        (lines.flatMap fun line => line ++ ['\n'])
      rw [List.flatMap_cons, List.append_assoc, List.singleton_append, splitlines, hline]
      exact congrArg (line :: ·) hrest

/-! ## Numbers -/

/-- `int` on a string without white space at its ends.  A single underscore may stand between two
digits. -/
def int (s : List Char) : Option ℤ :=
  let negative := s.head? = some '-'
  let digits := if negative ∨ s.head? = some '+' then s.tail else s
  let groups := digits.splitOn '_'
  if groups.all fun g => g ≠ [] && g.all Char.isDigit then
    let n : ℤ := Nat.ofDigitChars 10 groups.flatten 0
    some (if negative then -n else n)
  else none

section Digits

variable {digits : List Char} (hne : digits ≠ []) (hdigits : ∀ c ∈ digits, c.isDigit = true)

include hne hdigits

/-- Digits alone are one group. -/
theorem splitOn_digits :
    digits.splitOn '_' = [digits] ∧
      ((digits.splitOn '_').all fun g => g ≠ [] && g.all Char.isDigit) = true := by
  have hsplit : digits.splitOn '_' = [digits] := by
    refine List.splitOnP_eq_singleton fun c hc => ?_
    have hdigit := hdigits c hc
    by_contra h
    rw [Bool.not_eq_false, beq_iff_eq] at h
    rw [h] at hdigit
    exact absurd hdigit (by decide)
  refine ⟨hsplit, ?_⟩
  rw [hsplit]
  simp [hne, List.all_eq_true.mpr hdigits]

/-- A number is read back from its digits. -/
theorem int_digits : int digits = some (Nat.ofDigitChars 10 digits 0 : ℤ) := by
  have hsign : ∀ c : Char, c.isDigit = false → digits.head? ≠ some c := by
    intro c hc hhead
    rw [hdigits c (List.mem_of_mem_head? hhead)] at hc
    exact Bool.noConfusion hc
  have hminus := hsign '-' rfl
  have hplus := hsign '+' rfl
  rcases splitOn_digits hne hdigits with ⟨hsplit, hall⟩
  rw [int]
  simp only [hminus, hplus, or_self, if_false, hall, if_true]
  rw [hsplit, List.flatten_singleton]

/-- A negative number is read back. -/
theorem int_minus : int ('-' :: digits) = some (-(Nat.ofDigitChars 10 digits 0 : ℤ)) := by
  rcases splitOn_digits hne hdigits with ⟨hsplit, hall⟩
  rw [int]
  simp only [List.head?_cons, List.tail_cons, true_or, if_true, hall]
  rw [hsplit, List.flatten_singleton]

end Digits

end PyString
