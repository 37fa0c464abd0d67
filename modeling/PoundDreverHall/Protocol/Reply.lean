import PoundDreverHall.Client.Api
import PoundDreverHall.Requests.Behaviour

/-!
# Protocol - the dictionary of a reply

The server writes one line for each value of a reply, and the client reads the lines back into a
dictionary.  The line with the name of the command can be any text; the lines after it are read
back one by one.

Main results:

- Theorem {lit}`parseResponse_append`: the dictionary of a text whose last lines are plain.
- Theorem {lit}`executeCmd_responseText`: the dictionary of a reply.
- Theorem {lit}`status_of_reply`: the status in the dictionary is the return code.
-/

namespace PoundDreverHall
namespace Protocol

open Client PyString Requests
open Server hiding isSpace

/-! ## Characters -/

/-- A printable ASCII character other than the blank. -/
def Graphic (c : Char) : Prop :=
  0x21 ≤ c.toNat ∧ c.toNat ≤ 0x7E

/-- Such a character is no blank. -/
theorem Graphic.not_space {c : Char} (h : Graphic c) : isSpace c = false := by
  have hlow := h.1
  have hhigh := h.2
  rw [← Bool.not_eq_true]
  simp only [isSpace, Bool.or_eq_true, Bool.and_eq_true, decide_eq_true_eq]
  omega

/-- Letters and digits are such characters. -/
theorem graphic_of_alphanum {c : Char} (h : c.isAlphanum = true) : Graphic c := by
  change (decide ('A'.val ≤ c.val ∧ c.val ≤ 'Z'.val) ||
    (decide ('a'.val ≤ c.val) && decide (c.val ≤ 'z'.val)) ||
    (decide ('0'.val ≤ c.val) && decide (c.val ≤ '9'.val))) = true at h
  simp only [Bool.or_eq_true, Bool.and_eq_true, decide_eq_true_eq, UInt32.le_iff_toNat_le] at h
  change 0x21 ≤ c.val.toNat ∧ c.val.toNat ≤ 0x7E
  simp only [UInt32.reduceToNat, Char.reduceVal] at h
  omega

theorem graphic_of_isDigit {c : Char} (h : c.isDigit = true) : Graphic c :=
  graphic_of_alphanum (by simp [Char.isAlphanum, h])

/-- A printable ASCII character is no line break. -/
theorem not_lineBreak {c : Char} (h : 0x20 ≤ c.toNat ∧ c.toNat ≤ 0x7E) :
    isLineBreak c = false := by
  rw [← Bool.not_eq_true]
  simp only [isLineBreak, Bool.or_eq_true, Bool.and_eq_true, decide_eq_true_eq]
  omega

/-! ## Lines -/

/-- A line of a reply that is read back as it was written. -/
structure PlainLine (key value : List Char) : Prop where
  colon : ':' ∉ key
  trimmed : strip key = key
  printable : ∀ c ∈ key, 0x20 ≤ c.toNat ∧ c.toNat ≤ 0x7E
  graphic : ∀ c ∈ value, Graphic c

section Line

variable {key value : List Char} (h : PlainLine key value)

include h

/-- Such a line is one line. -/
theorem PlainLine.not_lineBreak : ∀ c ∈ key ++ ':' :: value, isLineBreak c = false := by
  intro c hc
  rw [List.mem_append, List.mem_cons] at hc
  rcases hc with hc | rfl | hc
  · exact Protocol.not_lineBreak (h.printable c hc)
  · rfl
  · have hgraphic := h.graphic c hc
    exact Protocol.not_lineBreak ⟨by have := hgraphic.1; omega, hgraphic.2⟩

/-- Such a line does not end in a blank. -/
theorem PlainLine.getLast : ∃ c ∈ (key ++ ':' :: value).getLast?, isSpace c = false := by
  rw [List.getLast?_append_of_ne_nil _ (List.cons_ne_nil _ _)]
  cases hvalue : value.getLast? with
  | none =>
      rw [List.getLast?_eq_none_iff.mp hvalue]
      exact ⟨':', rfl, rfl⟩
  | some c =>
      refine ⟨c, ?_, (h.graphic c (List.mem_of_mem_getLast? hvalue)).not_space⟩
      rw [List.getLast?_cons, hvalue]
      rfl

/-- Such a line is ASCII. -/
theorem PlainLine.decodeAscii :
    Client.decodeAscii (replyLine key value) = replyLine key value := by
  refine (List.map_congr_left fun c hc => if_pos ?_).trans (List.map_id _)
  rw [replyLine, List.append_assoc, List.mem_append, List.cons_append, List.mem_cons,
    List.mem_append, List.mem_singleton] at hc
  rcases hc with hc | rfl | hc | rfl
  · have hprintable := (h.printable c hc).2
    omega
  · decide
  · have hgraphic := (h.graphic c hc).2
    omega
  · decide

variable {D : Type} [PyFloat D]

/-- The client reads the line back. -/
theorem PlainLine.parseLine (result : Response D) :
    Client.parseLine result (key ++ ':' :: value) =
      Function.update result key (some (coerce value)) := by
  have hkey : ∀ c ∈ key, (c ≠ ':' : Bool) = true := by
    intro c hc
    rw [decide_eq_true_eq]
    rintro rfl
    exact h.colon hc
  have hvalue : strip value = value := strip_of_forall fun c hc => (h.graphic c hc).not_space
  rw [Client.parseLine, if_pos (by simp), List.takeWhile_append_of_pos hkey,
    List.dropWhile_append_of_pos hkey]
  simp only [List.takeWhile_cons, List.dropWhile_cons, ne_eq, not_true_eq_false, decide_false,
    Bool.false_eq_true, if_false, List.append_nil, List.tail_cons, h.trimmed, hvalue]

end Line

/-! ## Texts -/

section Text

variable {D : Type} [PyFloat D]

/-- The assignments of some lines to the dictionary. -/
def assign (result : Response D) (lines : List (List Char × List Char)) : Response D :=
  lines.foldl (fun result line => Function.update result line.1 (some (coerce line.2))) result

/-- The text of some lines. -/
def linesText (lines : List (List Char × List Char)) : List Char :=
  lines.flatMap fun line => replyLine line.1 line.2

/-- The text of some lines, as lines joined by newlines. -/
theorem linesText_eq (lines : List (List Char × List Char)) :
    linesText lines =
      (lines.map fun line => line.1 ++ ':' :: line.2).flatMap fun line => line ++ ['\n'] := by
  rw [linesText, List.flatMap_map]
  rfl

/-- Lines are entered into the dictionary one after the other. -/
theorem foldl_parseLine (result : Response D) {lines : List (List Char × List Char)}
    (hlines : ∀ line ∈ lines, PlainLine line.1 line.2) :
    (lines.map fun line => line.1 ++ ':' :: line.2).foldl parseLine result =
      assign result lines := by
  induction lines generalizing result with
  | nil => rfl
  | cons line lines ih =>
      rw [List.map_cons, List.foldl_cons, (hlines line List.mem_cons_self).parseLine]
      exact ih _ fun l hl => hlines l (List.mem_cons_of_mem _ hl)

/-- Whatever a text begins with, plain lines at its end are read one after the other. -/
theorem parseResponse_append {head : List Char} (hhead : ∃ c ∈ head.head?, isSpace c = false)
    {lines : List (List Char × List Char)} (hne : lines ≠ [])
    (hlines : ∀ line ∈ lines, PlainLine line.1 line.2) :
    (parseResponse (head ++ '\n' :: linesText lines) : Response D) =
      assign ((splitlines (head ++ ['\n'])).foldl parseLine fun _ => none) lines := by
  -- the text ends with the newline of its last line, which stripping removes
  have hlast : ∃ text, (∃ c ∈ (head ++ '\n' :: text).getLast?, isSpace c = false) ∧
      linesText lines = text ++ ['\n'] := by
    have hmem := hlines _ (List.getLast_mem hne)
    refine ⟨linesText lines.dropLast ++ (lines.getLast hne).1 ++ ':' :: (lines.getLast hne).2,
      ?_, ?_⟩
    · rcases hmem.getLast with ⟨c, hc, hspace⟩
      refine ⟨c, ?_, hspace⟩
      rw [List.append_assoc, ← List.cons_append, ← List.append_assoc,
        List.getLast?_append_of_ne_nil _ (by simp)]
      exact hc
    · nth_rewrite 1 [← List.dropLast_append_getLast hne]
      simp [linesText, replyLine]
  rcases hlast with ⟨text, hend, htext⟩
  have hfirst : ∃ c ∈ (head ++ '\n' :: text).head?, isSpace c = false := by
    rcases hhead with ⟨c, hc, hspace⟩
    exact ⟨c, by rw [List.head?_append, hc]; rfl, hspace⟩
  have hsplit := splitlines_strip hfirst hend
  rw [List.append_assoc, List.cons_append, ← htext] at hsplit
  rw [parseResponse, hsplit, splitlines_append, List.foldl_append, linesText_eq, splitlines_flatMap,
    foldl_parseLine _ hlines]
  intro line hline
  rcases List.mem_map.mp hline with ⟨kv, hkv, rfl⟩
  exact (hlines kv hkv).not_lineBreak

/-- A key of no line keeps its value. -/
theorem assign_of_not_mem (result : Response D) {lines : List (List Char × List Char)}
    {key : List Char} (h : ∀ line ∈ lines, line.1 ≠ key) :
    assign result lines key = result key := by
  induction lines generalizing result with
  | nil => rfl
  | cons line lines ih =>
      have hrest := ih (Function.update result line.1 (some (coerce line.2)))
        fun l hl => h l (List.mem_cons_of_mem _ hl)
      rw [assign, List.foldl_cons, ← assign, hrest,
        Function.update_of_ne (h line List.mem_cons_self).symm]

/-- With distinct keys, every line is found under its key. -/
theorem assign_of_mem (result : Response D) {lines : List (List Char × List Char)}
    (hnodup : (lines.map Prod.fst).Nodup) {line : List Char × List Char} (hline : line ∈ lines) :
    assign result lines line.1 = some (coerce line.2) := by
  induction lines generalizing result with
  | nil => exact absurd hline List.not_mem_nil
  | cons first lines ih =>
      rw [List.map_cons, List.nodup_cons] at hnodup
      rw [assign, List.foldl_cons, ← assign]
      rcases List.mem_cons.mp hline with rfl | hline
      · have hother : ∀ l ∈ lines, l.1 ≠ line.1 := fun l hl heq =>
          hnodup.1 (List.mem_map.mpr ⟨l, hl, heq⟩)
        rw [assign_of_not_mem _ hother, Function.update_self]
      · exact ih _ hnodup.2 hline

end Text

/-! ## Values -/

theorem graphic_formatUnsigned (u : BitVec 32) : ∀ c ∈ formatUnsigned u, Graphic c := by
  intro c hc
  exact graphic_of_isDigit (Nat.isDigit_of_mem_toDigits (by omega) (by omega) hc)

/-- An integer is printed in such characters. -/
theorem graphic_formatInt (z : ℤ) : ∀ c ∈ formatInt z, Graphic c := by
  have hdigits : ∀ c ∈ Nat.toDigits 10 z.natAbs, Graphic c := fun c hc =>
    graphic_of_isDigit (Nat.isDigit_of_mem_toDigits (by omega) (by omega) hc)
  intro c hc
  rw [formatInt] at hc
  split_ifs at hc with hneg
  · rcases List.mem_cons.mp hc with rfl | hc
    · exact ⟨by decide, by decide⟩
    · exact hdigits c hc
  · exact hdigits c hc

/-- So is every value. -/
theorem graphic_format {F : Type} [MixedPrecision F] (data : OutputData F) :
    ∀ c ∈ data.format, Graphic c := by
  cases data with
  | float x =>
      intro c hc
      rcases MixedPrecision.toText_chars x c hc with h | rfl | rfl
      · exact graphic_of_alphanum h
      · exact ⟨by decide, by decide⟩
      · exact ⟨by decide, by decide⟩
  | int i => exact graphic_formatInt _
  | uint u => exact graphic_formatUnsigned u

section Coerce

variable {D : Type} [PyFloat D]

/-- A number is read back as itself. -/
theorem coerce_formatInt (z : ℤ) : (coerce (formatInt z) : PyValue D) = .int z := by
  have hne : Nat.toDigits 10 z.natAbs ≠ [] := Nat.toDigits_ne_nil
  have hdigits : ∀ c ∈ Nat.toDigits 10 z.natAbs, c.isDigit = true := fun c hc =>
    Nat.isDigit_of_mem_toDigits (by omega) (by omega) hc
  have hint : int (formatInt z) = some z := by
    rw [formatInt]
    split_ifs with hneg
    · rw [int_minus hne hdigits, Nat.ofDigitChars_ten_toDigits]
      exact congrArg some (by omega)
    · rw [int_digits hne hdigits, Nat.ofDigitChars_ten_toDigits]
      exact congrArg some (by omega)
  rw [coerce, hint]

/-- An unsigned value is read back as the number it is. -/
theorem coerce_formatUnsigned (u : BitVec 32) :
    (coerce (formatUnsigned u) : PyValue D) = .int u.toNat := by
  have h := coerce_formatInt (D := D) u.toNat
  rwa [formatInt, if_neg (by omega), Int.natAbs_natCast] at h

end Coerce

/-! ## Replies -/

section Reply

variable {F : Type} [MixedPrecision F] {D : Type} [PyFloat D]

/-- The text of a reply before its status. -/
def replyHead (name : List Char) : List Char :=
  replyLine ['t', 'y', 'p', 'e'] ['o', 'u', 't', 'p', 'u', 't'] ++
    (['n', 'a', 'm', 'e', ':'] ++ name)

/-- The lines of a reply from its status on. -/
def replyLines (r : Reply F) : List (List Char × List Char) :=
  (['s', 't', 'a', 't', 'u', 's'], formatInt r.returnCode) ::
    r.outputItems.map fun o => (o.name.toList, o.data.format)

/-- The reply of the server: its head, and its lines. -/
theorem responseText_eq (name : List Char) (r : Reply F) :
    responseText name r = replyHead name ++ '\n' :: linesText (replyLines r) := by
  simp only [responseText, replyHead, replyLines, linesText, replyLine, List.flatMap_cons,
    List.flatMap_map, List.append_assoc, List.cons_append, List.nil_append]

theorem decodeAscii_append (xs ys : List Char) :
    decodeAscii (xs ++ ys) = decodeAscii xs ++ decodeAscii ys :=
  List.map_append

/-- The text of such lines is ASCII. -/
theorem decodeAscii_linesText {lines : List (List Char × List Char)}
    (hlines : ∀ line ∈ lines, PlainLine line.1 line.2) :
    decodeAscii (linesText lines) = linesText lines := by
  induction lines with
  | nil => rfl
  | cons line lines ih =>
      have hfirst := (hlines line List.mem_cons_self).decodeAscii
      have hrest := ih fun l hl => hlines l (List.mem_cons_of_mem _ hl)
      rw [linesText, List.flatMap_cons, ← linesText, decodeAscii_append, hfirst, hrest]

/-- The names of a reply are read back as they are. -/
def ReadableNames (r : Reply F) : Prop :=
  ∀ o ∈ r.outputItems, ':' ∉ o.name.toList ∧ strip o.name.toList = o.name.toList ∧
    ∀ c ∈ o.name.toList, 0x20 ≤ c.toNat ∧ c.toNat ≤ 0x7E

/-- The lines of a reply are such lines when its names are. -/
theorem plainLine_of_mem {r : Reply F} (hnames : ReadableNames r) :
    ∀ line ∈ replyLines r, PlainLine line.1 line.2 := by
  intro line hline
  rcases List.mem_cons.mp hline with rfl | hline
  · refine ⟨?_, ?_, ?_, graphic_formatInt r.returnCode⟩
    · simp
    · rfl
    · simp
  · rcases List.mem_map.mp hline with ⟨o, ho, rfl⟩
    rcases hnames o ho with ⟨hcolon, htrimmed, hprintable⟩
    exact ⟨hcolon, htrimmed, hprintable, graphic_format o.data⟩

/-- The dictionary of a reply. -/
theorem executeCmd_responseText (name : List Char) {r : Reply F} (hnames : ReadableNames r) :
    ∃ start : Response D, executeCmd (responseText name r) = assign start (replyLines r) := by
  have hplain := plainLine_of_mem hnames
  have hdecode : decodeAscii (responseText name r) =
      replyHead (decodeAscii name) ++ '\n' :: linesText (replyLines r) := by
    have hrest : decodeAscii ('\n' :: linesText (replyLines r)) =
        '\n' :: linesText (replyLines r) :=
      congrArg ('\n' :: ·) (decodeAscii_linesText hplain)
    rw [responseText_eq, decodeAscii_append, hrest, replyHead, decodeAscii_append,
      decodeAscii_append]
    rfl
  rw [executeCmd, hdecode]
  exact ⟨_, parseResponse_append ⟨'t', rfl, rfl⟩ (List.cons_ne_nil _ _) hplain⟩

/-- The status in the dictionary of a reply is the return code. -/
theorem status_of_reply (name : List Char) {r : Reply F} (hnames : ReadableNames r)
    (hstatus : ∀ o ∈ r.outputItems, o.name ≠ "status") :
    (executeCmd (responseText name r) : Response D) ['s', 't', 'a', 't', 'u', 's'] =
      some (.int r.returnCode) := by
  rcases executeCmd_responseText (D := D) name hnames with ⟨start, hdict⟩
  have hother : ∀ line ∈ r.outputItems.map fun o => (o.name.toList, o.data.format),
      line.1 ≠ ['s', 't', 'a', 't', 'u', 's'] := by
    intro line hline
    rcases List.mem_map.mp hline with ⟨o, ho, rfl⟩
    exact fun h => hstatus o ho (String.toList_inj.mp (h.trans (by decide)))
  rw [hdict, assign, replyLines, List.foldl_cons, ← assign, assign_of_not_mem _ hother,
    Function.update_self, coerce_formatInt]

omit [MixedPrecision F] in
/-- The names that the handlers give are readable. -/
theorem readable_of_plain {r : Reply F} (h : PlainReply r) :
    ReadableNames r ∧ ∀ o ∈ r.outputItems, o.name ≠ "status" := by
  have hgraphic : ∀ o ∈ r.outputItems, ∀ c ∈ o.name.toList, Graphic c ∧ c ≠ ':' := by
    intro o ho c hc
    rcases (h o ho).2.1 c hc with halnum | rfl
    · refine ⟨graphic_of_alphanum halnum, ?_⟩
      rintro rfl
      exact absurd halnum (by decide)
    · exact ⟨⟨by decide, by decide⟩, by decide⟩
  constructor
  · intro o ho
    refine ⟨fun hmem => (hgraphic o ho _ hmem).2 rfl,
      strip_of_forall fun c hc => (hgraphic o ho c hc).1.not_space, fun c hc => ?_⟩
    have hc := (hgraphic o ho c hc).1
    exact ⟨by have := hc.1; omega, hc.2⟩
  · intro o ho hname
    have hplain := (h o ho).2.2
    rw [hname] at hplain
    exact absurd hplain (by decide)

end Reply

end Protocol
end PoundDreverHall
