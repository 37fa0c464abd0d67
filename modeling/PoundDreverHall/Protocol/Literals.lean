import PoundDreverHall.Server.Text
import PoundDreverHall.Text.Scan

/-!
# Protocol - numbers in a request

The arguments of a request are numbers with commas between them, and a newline or the end of the
string after the last one.  This file shows that `strtof` and `strtoul` read a number up to the
separator behind it.

Main results:

- Theorem {lit}`stopsAt_scanNumber`: what `strtof` reads of a text without leading white space
  ends at a separator.
- Theorem {lit}`FloatLiteral.isToken`: a literal is read before a separator as it is alone.
- Theorem {lit}`floatLiteral_decimal`: decimal numbers are literals.
- Theorem {lit}`token_integer`: an integer is read before a separator as it is alone.
-/

namespace PoundDreverHall
namespace Protocol

open Scan Server

/-! ## Separators -/

/-- What follows a number in a request: a comma, a newline, or the end of the string. -/
def Separator (c : Char) : Prop :=
  c = ',' ∨ c = '\n' ∨ c = '\x00'

instance (c : Char) : Decidable (Separator c) :=
  inferInstanceAs (Decidable (c = ',' ∨ c = '\n' ∨ c = '\x00'))

section Separators

variable {c : Char} (hc : Separator c)

include hc

theorem Separator.not_digit : c.isDigit = false := by
  rcases hc with rfl | rfl | rfl <;> rfl

theorem Separator.not_hexDigit : isHexDigit c = false := by
  rcases hc with rfl | rfl | rfl <;> decide

theorem Separator.toLower : c.toLower = c := by
  rcases hc with rfl | rfl | rfl <;> rfl

/-! ## Parts of a number -/

/-- A sign is read from the number, not from what follows. -/
theorem takeSign_append (text rest : List Char) :
    takeSign (text ++ c :: rest) = ((takeSign text).1, (takeSign text).2 ++ c :: rest) := by
  cases text with
  | nil =>
      rw [List.nil_append, takeSign.eq_def]
      split
      · rcases hc with h | h | h <;> simp_all
      · rcases hc with h | h | h <;> simp_all
      · rfl
  | cons d text =>
      rw [List.cons_append, takeSign.eq_def, takeSign.eq_def]
      split <;> simp_all

/-- A mantissa ends at what is no digit. -/
theorem stopsAt_scanMantissa {digit : Char → Bool} (hdigit : digit c = false) :
    StopsAt c (scanMantissa digit) := by
  intro text rest
  have hpoint : c ≠ '.' := by
    rintro rfl
    exact absurd hc (by decide)
  unfold scanMantissa
  rw [takeWhile_stop hdigit, dropWhile_stop hdigit]
  cases hleft : text.dropWhile digit with
  | nil =>
      simp only [List.nil_append]
      split
      · simp_all
      · split_ifs <;> rfl
  | cons d left =>
      simp only [List.cons_append]
      by_cases hd : d = '.'
      · subst hd
        simp only [takeWhile_stop hdigit, dropWhile_stop hdigit]
        split_ifs <;> rfl
      · split
        · simp_all
        · split_ifs <;> simp_all

/-- An exponent is read from the number, not from what follows. -/
theorem scanExponent_append {mark : Char} (hmark : c ≠ mark) (text rest : List Char) :
    scanExponent mark (text ++ c :: rest) =
      ((scanExponent mark text).1, (scanExponent mark text).2 ++ c :: rest) := by
  cases text with
  | nil =>
      simp [scanExponent, hc.toLower, hmark]
  | cons d text =>
      rw [List.cons_append, scanExponent, scanExponent, takeSign_append hc]
      simp only [takeWhile_stop hc.not_digit, dropWhile_stop hc.not_digit]
      split_ifs <;> rfl

/-- A mantissa and the exponent behind it. -/
theorem stopsAt_mantissa_exponent {digit : Char → Bool} {mark : Char} (hdigit : digit c = false)
    (hmark : c ≠ mark) :
    StopsAt c fun text => (scanMantissa digit text).map fun (mantissa, rest) =>
      (mantissa ++ (scanExponent mark rest).1, (scanExponent mark rest).2) := by
  intro text rest
  simp only [stopsAt_scanMantissa hc hdigit text rest]
  cases scanMantissa digit text with
  | none => rfl
  | some found => simp only [Option.map_some, scanExponent_append hc hmark]

/-- A decimal number ends at a separator. -/
theorem stopsAt_scanDecimal : StopsAt c scanDecimal := by
  have hmark : c ≠ 'e' := by
    rintro rfl
    exact absurd hc (by decide)
  exact stopsAt_mantissa_exponent hc hc.not_digit hmark

/-- So does a hexadecimal one. -/
theorem stopsAt_scanHexadecimal : StopsAt c scanHexadecimal := by
  have hzero : c ≠ '0' := by
    rintro rfl
    exact absurd hc (by decide)
  have hx : c ≠ 'x' := by
    rintro rfl
    exact absurd hc (by decide)
  have hmark : c ≠ 'p' := by
    rintro rfl
    exact absurd hc (by decide)
  have hnumber := (stopsAt_mantissa_exponent hc hc.not_hexDigit hmark)
  intro text rest
  rcases text with _ | ⟨d, _ | ⟨e, text⟩⟩
  · simp [scanHexadecimal, hzero]
  · by_cases hd : d = '0'
    · simp [scanHexadecimal, hd, hc.toLower, hx]
    · simp [scanHexadecimal, hd]
  · by_cases hd : d = '0'
    · subst hd
      simp only [List.cons_append, scanHexadecimal]
      split_ifs with he
      · have h := (hnumber.map fun number => '0' :: e :: number) text rest
        simp only [Option.map_map] at h ⊢
        exact h
      · rfl
    · simp [scanHexadecimal, hd]

/-- So does a word that has no separator in it. -/
theorem stopsAt_scanWord {word : List Char} (hword : c ∉ word) : StopsAt c (scanWord word) := by
  intro text rest
  unfold scanWord
  by_cases hlength : word.length ≤ text.length
  · rw [List.take_append_of_le_length hlength, List.drop_append_of_le_length hlength]
    split_ifs <;> rfl
  · -- the text ends before the word, and the separator is no part of it
    have hshort : (text.take word.length).map Char.toLower ≠ word := by
      intro h
      have := congrArg List.length h
      simp only [List.length_map, List.length_take] at this
      omega
    have hlong : ((text ++ c :: rest).take word.length).map Char.toLower ≠ word := by
      intro h
      apply hword
      have hmem : c ∈ (text ++ c :: rest).take word.length := by
        rw [List.take_append, List.mem_append]
        right
        have hpos : 0 < word.length - text.length := by omega
        rw [← Nat.succ_pred_eq_of_pos hpos, List.take_succ_cons]
        exact List.mem_cons_self
      have hmapped := List.mem_map_of_mem (f := Char.toLower) hmem
      rwa [hc.toLower, h] at hmapped
    rw [if_neg hshort, if_neg hlong]
    rfl

theorem stopsAt_scanInfinity : StopsAt c scanInfinity := by
  apply StopsAt.orElse
  · exact stopsAt_scanWord hc (by rcases hc with rfl | rfl | rfl <;> decide)
  · exact stopsAt_scanWord hc (by rcases hc with rfl | rfl | rfl <;> decide)

theorem stopsAt_scanNan : StopsAt c scanNan := by
  have hbracket : c ≠ '(' := by
    rintro rfl
    exact absurd hc (by decide)
  have hclose : c ≠ ')' := by
    rintro rfl
    exact absurd hc (by decide)
  have htag : (c.isAlphanum || (c = '_' : Bool)) = false := by
    rcases hc with rfl | rfl | rfl <;> rfl
  intro text rest
  unfold scanNan
  rw [stopsAt_scanWord hc (by rcases hc with rfl | rfl | rfl <;> decide) text rest]
  cases scanWord ['n', 'a', 'n'] text with
  | none => rfl
  | some found =>
      rcases found with ⟨word, left⟩
      rcases left with _ | ⟨d, left⟩
      · simp [hbracket]
      · by_cases hd : d = '('
        · subst hd
          have hle := (List.takeWhile_prefix (l := left) fun d =>
            d.isAlphanum || (d = '_' : Bool)).length_le
          have htake := takeWhile_stop (p := fun d : Char => d.isAlphanum || (d = '_' : Bool))
            htag left rest
          simp only [Option.map_some, List.cons_append, htake,
            List.drop_append_of_le_length hle]
          cases left.drop (left.takeWhile fun d => d.isAlphanum || (d = '_' : Bool)).length with
          | nil => simp [hclose]
          | cons e left =>
              by_cases he : e = ')'
              · subst he
                rfl
              · simp [he]
        · simp [hd]

/-- The text of a floating-point number, and the rest of the text. -/
theorem stopsAt_unsigned :
    StopsAt c fun text =>
      scanInfinity text <|> scanNan text <|> scanHexadecimal text <|> scanDecimal text :=
  (stopsAt_scanInfinity hc).orElse <| (stopsAt_scanNan hc).orElse <|
    (stopsAt_scanHexadecimal hc).orElse (stopsAt_scanDecimal hc)

end Separators

/-- `strtof` behind the leading white space. -/
def scanNumber : Scanner Char (List Char) := fun text =>
  (scanInfinity (takeSign text).2 <|> scanNan (takeSign text).2 <|>
      scanHexadecimal (takeSign text).2 <|> scanDecimal (takeSign text).2).map
    fun (number, rest) => ((takeSign text).1 ++ number, rest)

/-- Blanks in front are skipped. -/
theorem scanFloat_eq (text : List Char) : scanFloat text = scanNumber (text.dropWhile isSpace) :=
  rfl

/-- So does every kind of number. -/
theorem stopsAt_scanNumber {c : Char} (hc : Separator c) : StopsAt c scanNumber := by
  intro text rest
  have h := (stopsAt_unsigned hc).map (fun number => (takeSign text).1 ++ number)
    (takeSign text).2 rest
  simp only [scanNumber, takeSign_append hc]
  exact h

/-! ## Tokens -/

theorem not_isSpace_of_isDigit {c : Char} (h : c.isDigit = true) : isSpace c = false := by
  by_contra hspace
  simp only [isSpace, Bool.not_eq_false, Bool.or_eq_true, decide_eq_true_eq] at hspace
  rcases hspace with ((((rfl | rfl) | rfl) | rfl) | rfl) | rfl <;> exact absurd h (by decide)

/-- A text that does not begin with white space. -/
theorem dropWhile_isSpace {token : List Char} (hne : token ≠ [])
    (h : ∀ c ∈ token, isSpace c = false) (tail : List Char) :
    (token ++ tail).dropWhile isSpace = token ++ tail := by
  rcases List.exists_cons_of_ne_nil hne with ⟨c, rest, rfl⟩
  rw [List.cons_append, List.dropWhile_cons, h c List.mem_cons_self, if_neg Bool.false_ne_true]

/-- A text that `strtof` reads to its end, without white space. -/
structure FloatLiteral (token : List Char) : Prop where
  noSpace : ∀ c ∈ token, isSpace c = false
  reads : Reads scanFloat token token

/-- What may follow a token: the end of the text, or a separator. -/
def Boundary (tail : List Char) : Prop :=
  tail = [] ∨ ∃ c rest, tail = c :: rest ∧ Separator c

/-- A token that is read alike wherever a request can have it. -/
structure Token {α : Type} (number : Scanner Char α) (token : List Char) (a : α) : Prop where
  read : ∀ tail, Boundary tail → number (token ++ tail) = some (a, tail)
  ne_nil : token ≠ []
  no_separator : ∀ c ∈ token, ¬Separator c

section Float

variable {token : List Char} (h : FloatLiteral token)

include h

/-- No number is an empty text. -/
theorem FloatLiteral.ne_nil : token ≠ [] := by
  rintro rfl
  have hnone : scanFloat [] = none := rfl
  exact absurd (hnone.symm.trans h.reads) (by simp)

/-- A number of the grammar is read whole. -/
theorem FloatLiteral.reads_scanNumber : Reads scanNumber token token := by
  have hdrop := dropWhile_isSpace h.ne_nil h.noSpace []
  rw [List.append_nil] at hdrop
  have hreads := h.reads
  rwa [Reads, scanFloat_eq, hdrop] at hreads

/-- A literal is read alike at the end of the text and before a separator. -/
theorem FloatLiteral.isToken {F : Type} [MixedPrecision F] :
    Token strtof token (MixedPrecision.ofText token : F) where
  ne_nil := h.ne_nil
  no_separator c hc hsep := (stopsAt_scanNumber hsep).not_mem h.reads_scanNumber hc
  read tail htail := by
    have hscan : scanFloat (token ++ tail) = some (token, tail) := by
      rw [scanFloat_eq, dropWhile_isSpace h.ne_nil h.noSpace]
      rcases htail with rfl | ⟨c, rest, rfl, hc⟩
      · rw [List.append_nil]
        exact h.reads_scanNumber
      · exact (stopsAt_scanNumber hc).scan_append h.reads_scanNumber rest
    rw [strtof, hscan]
    rfl

end Float

/-! ## Decimal numbers -/

/-- An optional sign. -/
def OptionalSign (sign : List Char) : Prop :=
  sign = [] ∨ sign = ['-'] ∨ sign = ['+']

/-- A sequence of digits. -/
structure Digits (digits : List Char) : Prop where
  ne_nil : digits ≠ []
  digit : ∀ c ∈ digits, c.isDigit = true

/-- A fraction, if there is one. -/
def OptionalFraction (fraction : List Char) : Prop :=
  fraction = [] ∨ ∃ digits, fraction = '.' :: digits ∧ ∀ c ∈ digits, c.isDigit = true

/-- An exponent, if there is one. -/
def OptionalExponent (exponent : List Char) : Prop :=
  exponent = [] ∨
    ∃ sign digits, exponent = 'e' :: (sign ++ digits) ∧ OptionalSign sign ∧ Digits digits

/-- The sign of a number that goes on with a digit. -/
theorem takeSign_digits {sign digits : List Char} (hsign : OptionalSign sign)
    (hdigits : ∃ d ∈ digits.head?, d.isDigit = true) :
    takeSign (sign ++ digits) = (sign, digits) := by
  rcases hdigits with ⟨d, hd, hdigit⟩
  cases digits with
  | nil => cases hd
  | cons e digits =>
      cases hd
      rcases hsign with rfl | rfl | rfl
      · rw [List.nil_append, takeSign.eq_def]
        split
        · simp_all
        · simp_all
        · rfl
      · rfl
      · rfl

/-- Digits are read up to the first character that is none. -/
theorem takeWhile_digits {digits : List Char} (hdigits : ∀ c ∈ digits, c.isDigit = true)
    (rest : List Char) (hrest : ∀ c ∈ rest.head?, c.isDigit = false) :
    (digits ++ rest).takeWhile Char.isDigit = digits ∧
      (digits ++ rest).dropWhile Char.isDigit = rest := by
  rw [List.takeWhile_append_of_pos hdigits, List.dropWhile_append_of_pos hdigits]
  cases rest with
  | nil => simp
  | cons c rest => simp [hrest c rfl]

theorem OptionalExponent.head {exponent : List Char} (h : OptionalExponent exponent) :
    ∀ c ∈ exponent.head?, c = 'e' := by
  rcases h with rfl | ⟨sign, digits, rfl, -⟩
  · simp
  · simp

/-- An exponent of the grammar is read whole. -/
theorem scanExponent_eq {exponent : List Char} (h : OptionalExponent exponent) :
    scanExponent 'e' exponent = (exponent, []) := by
  rcases h with rfl | ⟨sign, digits, rfl, hsign, hdigits⟩
  · rfl
  · have hhead : ∃ d ∈ digits.head?, d.isDigit = true := by
      cases digits with
      | nil => exact absurd rfl hdigits.ne_nil
      | cons d digits => exact ⟨d, rfl, hdigits.digit d List.mem_cons_self⟩
    have hall := takeWhile_digits hdigits.digit [] (by simp)
    rw [List.append_nil] at hall
    have hlower : 'e'.toLower = 'e' := by decide
    rw [scanExponent, takeSign_digits hsign hhead]
    simp [hall.1, hall.2, hlower, hdigits.ne_nil]

/-- A decimal number of the grammar is read whole. -/
theorem scanDecimal_eq {whole fraction exponent : List Char} (hwhole : Digits whole)
    (hfraction : OptionalFraction fraction) (hexponent : OptionalExponent exponent) :
    scanDecimal (whole ++ (fraction ++ exponent)) =
      some (whole ++ (fraction ++ exponent), []) := by
  have hhead : ∀ c ∈ exponent.head?, c.isDigit = false := by
    intro c hc
    rw [hexponent.head c hc]
    rfl
  have hmantissa : scanMantissa Char.isDigit (whole ++ (fraction ++ exponent)) =
      some (whole ++ fraction, exponent) := by
    rcases hfraction with rfl | ⟨digits, rfl, hdigits⟩
    · have hall := takeWhile_digits hwhole.digit exponent hhead
      rw [scanMantissa, List.nil_append, List.append_nil, hall.1, hall.2]
      split
      · exact absurd (hexponent.head '.' rfl) (by decide)
      · simp [hwhole.ne_nil]
    · have hall := takeWhile_digits hwhole.digit ('.' :: (digits ++ exponent)) (by simp)
      have hrest := takeWhile_digits hdigits exponent hhead
      rw [scanMantissa, List.cons_append, hall.1, hall.2]
      simp [hrest.1, hrest.2, hwhole.ne_nil]
  simp [scanDecimal, hmantissa, scanExponent_eq hexponent]

theorem toLower_of_isDigit {c : Char} (h : c.isDigit = true) : c.toLower = c := by
  have hupper : ¬(c.val ≥ 'A'.val ∧ c.val ≤ 'Z'.val) := by
    change (decide ('0'.val ≤ c.val) && decide (c.val ≤ '9'.val)) = true at h
    rintro ⟨hlow, -⟩
    simp only [Bool.and_eq_true, decide_eq_true_eq, ge_iff_le, UInt32.le_iff_toNat_le] at h hlow
    simp only [UInt32.reduceToNat, Char.reduceVal] at h hlow
    omega
  exact dif_neg hupper

/-- A word does not begin with a digit. -/
theorem scanWord_digit {w d : Char} (hd : d.isDigit = true) (hw : w.isDigit = false)
    (word rest : List Char) : scanWord (w :: word) (d :: rest) = none := by
  have hlower := toLower_of_isDigit hd
  have hne : d ≠ w := by
    rintro rfl
    rw [hd] at hw
    cases hw
  simp [scanWord, hlower, hne]

/-- Without the mark of a hexadecimal number nothing is read as one. -/
theorem scanHexadecimal_eq_none {text : List Char} (h : ∀ c ∈ text, c.toLower ≠ 'x') :
    scanHexadecimal text = none := by
  unfold scanHexadecimal
  split
  · rename_i x cs
    rw [if_neg (h x (by simp))]
  · rfl

section Decimal

variable {sign whole fraction exponent : List Char} (hsign : OptionalSign sign)
  (hwhole : Digits whole) (hfraction : OptionalFraction fraction)
  (hexponent : OptionalExponent exponent)

include hsign hwhole hfraction hexponent

/-- Every character is a digit, a point, a sign or the mark of the exponent. -/
theorem mem_decimal {c : Char} (hc : c ∈ sign ++ (whole ++ (fraction ++ exponent))) :
    c.isDigit = true ∨ c ∈ ['.', 'e', '-', '+'] := by
  have hsigns : ∀ {s : List Char}, OptionalSign s → ∀ c ∈ s, c ∈ ['.', 'e', '-', '+'] := by
    rintro s (rfl | rfl | rfl) <;> simp
  simp only [List.mem_append] at hc
  rcases hc with hc | hc | hc | hc
  · exact .inr (hsigns hsign c hc)
  · exact .inl (hwhole.digit c hc)
  · rcases hfraction with rfl | ⟨digits, rfl, hdigits⟩
    · cases hc
    · rcases List.mem_cons.mp hc with rfl | hc
      · simp
      · exact .inl (hdigits c hc)
  · rcases hexponent with rfl | ⟨s, digits, rfl, hs, hdigits⟩
    · cases hc
    · simp only [List.mem_cons, List.mem_append] at hc
      rcases hc with rfl | hc | hc
      · simp
      · exact .inr (hsigns hs c hc)
      · exact .inl (hdigits.digit c hc)

/-- Decimal numbers are literals. -/
theorem floatLiteral_decimal : FloatLiteral (sign ++ (whole ++ (fraction ++ exponent))) := by
  have hhead : ∃ d ∈ (whole ++ (fraction ++ exponent)).head?, d.isDigit = true := by
    rcases List.exists_cons_of_ne_nil hwhole.ne_nil with ⟨d, digits, rfl⟩
    exact ⟨d, rfl, hwhole.digit d List.mem_cons_self⟩
  have hchars : ∀ c ∈ sign ++ (whole ++ (fraction ++ exponent)),
      c.isDigit = true ∨ c ∈ ['.', 'e', '-', '+'] :=
    fun c hc => mem_decimal hsign hwhole hfraction hexponent hc
  have hspace : ∀ c ∈ sign ++ (whole ++ (fraction ++ exponent)), isSpace c = false := by
    intro c hc
    rcases hchars c hc with hdigit | hmark
    · exact not_isSpace_of_isDigit hdigit
    · have hmarks : (['.', 'e', '-', '+'].all fun c => !isSpace c) = true := rfl
      simpa using List.all_eq_true.mp hmarks c hmark
  have hword : ∀ w word, w.isDigit = false →
      scanWord (w :: word) (whole ++ (fraction ++ exponent)) = none := by
    intro w word hw
    rcases List.exists_cons_of_ne_nil hwhole.ne_nil with ⟨d, digits, hd⟩
    rw [hd, List.cons_append]
    exact scanWord_digit (hwhole.digit d (by rw [hd]; exact List.mem_cons_self)) hw _ _
  have hhexadecimal : scanHexadecimal (whole ++ (fraction ++ exponent)) = none := by
    apply scanHexadecimal_eq_none
    intro c hc
    rcases hchars c (List.mem_append_right _ hc) with hdigit | hmark
    · rw [toLower_of_isDigit hdigit]
      rintro rfl
      exact absurd hdigit (by decide)
    · have hmarks : (['.', 'e', '-', '+'].all fun c => c.toLower ≠ 'x') = true := rfl
      simpa using List.all_eq_true.mp hmarks c hmark
  refine ⟨hspace, ?_⟩
  have hne : sign ++ (whole ++ (fraction ++ exponent)) ≠ [] := by
    simp [hwhole.ne_nil]
  have hdrop := dropWhile_isSpace hne hspace []
  rw [List.append_nil] at hdrop
  rw [Reads, scanFloat_eq, hdrop, scanNumber, takeSign_digits hsign hhead, scanInfinity, scanNan,
    hword 'i' _ rfl, hword 'i' _ rfl, hword 'n' _ rfl, hhexadecimal,
    scanDecimal_eq hwhole hfraction hexponent]
  rfl

end Decimal

/-- The digits of a number. -/
theorem digits_toDigits (n : ℕ) : Digits (Nat.toDigits 10 n) where
  ne_nil := Nat.toDigits_ne_nil
  digit := fun _ hc => Nat.isDigit_of_mem_toDigits (by omega) (by omega) hc

/-- An integer is read alike at the end of the text and before a separator. -/
theorem token_integer {sign digits : List Char} (hsign : OptionalSign sign)
    (hdigits : Digits digits) : Token strtoul (sign ++ digits) (unsignedLongValue sign digits) := by
  have hhead : ∀ tail, ∃ d ∈ (digits ++ tail).head?, d.isDigit = true := by
    intro tail
    rcases List.exists_cons_of_ne_nil hdigits.ne_nil with ⟨d, rest, rfl⟩
    exact ⟨d, rfl, hdigits.digit d List.mem_cons_self⟩
  have hchars : ∀ c ∈ sign ++ digits, c = '-' ∨ c = '+' ∨ c.isDigit = true := by
    intro c hc
    rcases List.mem_append.mp hc with hc | hc
    · rcases hsign with rfl | rfl | rfl
      · cases hc
      · exact .inl (List.mem_singleton.mp hc)
      · exact .inr (.inl (List.mem_singleton.mp hc))
    · exact .inr (.inr (hdigits.digit c hc))
  have hspace : ∀ c ∈ sign ++ digits, isSpace c = false := by
    intro c hc
    rcases hchars c hc with rfl | rfl | hdigit
    · rfl
    · rfl
    · exact not_isSpace_of_isDigit hdigit
  have hne : sign ++ digits ≠ [] := List.append_ne_nil_of_right_ne_nil _ hdigits.ne_nil
  refine ⟨fun tail htail => ?_, hne, fun c hc hsep => ?_⟩
  · have hstop : ∀ c ∈ tail.head?, c.isDigit = false := by
      rcases htail with rfl | ⟨c, rest, rfl, hc⟩
      · simp
      · simp [hc.not_digit]
    have hdrop := dropWhile_isSpace hne hspace tail
    have htake := takeSign_digits hsign (hhead tail)
    have hrun := takeWhile_digits hdigits.digit tail hstop
    have hscan : scanInteger (sign ++ digits ++ tail) = some (sign, digits, tail) := by
      rw [← List.append_assoc] at htake
      simp only [scanInteger, hdrop, htake, hrun.1, hrun.2, if_neg hdigits.ne_nil]
    rw [strtoul, hscan, Option.map_some]
  · rcases hchars c hc with rfl | rfl | hdigit
    · exact absurd hsep (by decide)
    · exact absurd hsep (by decide)
    · exact absurd hdigit (by rw [hsep.not_digit]; decide)

/-- A decimal number below {lit}`2^32` is read back. -/
theorem token_toDigits {n : ℕ} (hn : n < 2 ^ 32) :
    Token strtoul (Nat.toDigits 10 n) (BitVec.ofNat 32 n) := by
  have htoken := token_integer (.inl rfl) (digits_toDigits n)
  have hvalue : unsignedLongValue [] (Nat.toDigits 10 n) = BitVec.ofNat 32 n := by
    simp only [unsignedLongValue, Nat.ofDigitChars_ten_toDigits]
    rw [if_neg (by omega)]
    rfl
  rwa [hvalue] at htoken

/-! ## Lists of arguments -/

/-- A line of arguments is read token by token. -/
theorem parseArgs_intercalate {α : Type} {number : Scanner Char α} {value : List Char → α}
    {tail : List Char} (htail : tail = [] ∨ ∃ rest, tail = '\n' :: rest)
    {tokens : List (List Char)} (htokens : ∀ t ∈ tokens, Token number t (value t))
    (hempty : tokens = [] → tail ≠ [] → number tail = none) (max : ℕ) :
    parseArgs number max ([','].intercalate tokens ++ tail) = (tokens.take max).map value := by
  induction tokens generalizing max with
  | nil =>
      cases max with
      | zero => rfl
      | succ max =>
          by_cases hnil : tail = []
          · subst hnil
            rfl
          · rw [parseArgs, if_neg (by simpa using hnil)]
            simp [hempty rfl hnil]
  | cons token tokens ih =>
      cases max with
      | zero => rfl
      | succ max =>
          have htoken := htokens token List.mem_cons_self
          cases tokens with
          | nil =>
              have hread := htoken.read tail (by
                rcases htail with rfl | ⟨rest, rfl⟩
                · exact .inl rfl
                · exact .inr ⟨_, rest, rfl, .inr (.inl rfl)⟩)
              rw [intercalate_singleton, parseArgs, if_neg (by simp [htoken.ne_nil]), hread]
              rcases htail with rfl | ⟨rest, rfl⟩ <;> simp
          | cons token' tokens =>
              have hread := htoken.read (',' :: ([','].intercalate (token' :: tokens) ++ tail))
                (.inr ⟨_, _, rfl, .inl rfl⟩)
              have hrest := ih (fun t ht => htokens t (List.mem_cons_of_mem _ ht)) (by simp) max
              rw [intercalate_cons_cons, List.append_assoc, List.cons_append, parseArgs,
                if_neg (by simp [htoken.ne_nil]), hread]
              simp only [hrest, List.take_succ_cons, List.map_cons]

end Protocol
end PoundDreverHall
