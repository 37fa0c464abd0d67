import PoundDreverHall.Protocol.Reply
import PoundDreverHall.Requests.ReplyNames
import PoundDreverHall.Text.Scan

/-!
# Protocol - the beginning of a reply

The client takes what its first `recv` returns for the whole reply.  This file says what the
dictionary of the beginning of a reply is, and when it is the dictionary of the reply.

Main results:

- Theorem {lit}`parseResponse_front`: the dictionary of some lines and the beginning of one more.
- Theorem {lit}`executeCmd_take_iff`: the beginning of some lines has the dictionary of the lines
  if and only if it reaches into the last value and that value is read alike.
- Theorem {lit}`executeCmd_take_responseText`: so does the beginning of a reply of the server.
-/

namespace PoundDreverHall
namespace Protocol

open Client PyString Requests Scan
open Server hiding isSpace

variable {D : Type} [PyFloat D]

/-! ## Lines without blanks -/

/-- A line of a reply without blanks. -/
structure GraphicLine (line : List Char × List Char) : Prop where
  ne_nil : line.1 ≠ []
  key : ∀ c ∈ line.1, Graphic c ∧ c ≠ ':'
  value : ∀ c ∈ line.2, Graphic c

/-- The characters of a line. -/
def lineText (line : List Char × List Char) : List Char :=
  line.1 ++ ':' :: line.2

/-- The text of some lines. -/
theorem linesText_eq_flatMap (lines : List (List Char × List Char)) :
    linesText lines = lines.flatMap fun line => lineText line ++ ['\n'] :=
  rfl

section GraphicLine

variable {line : List Char × List Char} (h : GraphicLine line)

include h

/-- Such a line keeps its key and its value when it is parsed. -/
theorem GraphicLine.plainLine : PlainLine line.1 line.2 where
  colon := fun hmem => (h.key _ hmem).2 rfl
  trimmed := strip_of_forall fun c hc => (h.key c hc).1.not_space
  printable := fun c hc => ⟨by have := (h.key c hc).1.1; omega, (h.key c hc).1.2⟩
  graphic := h.value

/-- Such a line has no blank and no control character. -/
theorem GraphicLine.graphic : ∀ c ∈ lineText line, Graphic c := by
  intro c hc
  rw [lineText, List.mem_append, List.mem_cons] at hc
  rcases hc with hc | rfl | hc
  · exact (h.key c hc).1
  · exact ⟨by decide, by decide⟩
  · exact h.value c hc

/-- A value that is cut short leaves a line of the same kind. -/
theorem GraphicLine.take (j : ℕ) : GraphicLine (line.1, line.2.take j) where
  ne_nil := h.ne_nil
  key := h.key
  value := fun c hc => h.value c (List.mem_of_mem_take hc)

end GraphicLine

/-! ## Parsing lines -/

/-- The first character of some lines that are not empty is in one of them. -/
theorem head?_flatMap {raws : List (List Char)} (hraws : ∀ raw ∈ raws, raw ≠ [])
    (hne : raws ≠ []) (rest : List Char) :
    ∃ raw ∈ raws, ∃ c ∈ raw,
      ((raws.flatMap fun raw => raw ++ ['\n']) ++ rest).head? = some c := by
  rcases List.exists_cons_of_ne_nil hne with ⟨raw, raws, rfl⟩
  rcases List.exists_cons_of_ne_nil (hraws raw List.mem_cons_self) with ⟨c, raw, rfl⟩
  exact ⟨_, List.mem_cons_self, c, List.mem_cons_self, rfl⟩

/-- Lines without blanks are parsed one after the other. -/
theorem parseResponse_flatMap {raws : List (List Char)} (hne : raws ≠ [])
    (hraws : ∀ raw ∈ raws, raw ≠ [] ∧ ∀ c ∈ raw, Graphic c) :
    (parseResponse (raws.flatMap fun raw => raw ++ ['\n']) : Response D) =
      raws.foldl parseLine fun _ => none := by
  have htext : ∃ text, (raws.flatMap fun raw => raw ++ ['\n']) = text ++ ['\n'] ∧
      (∃ c ∈ text.head?, isSpace c = false) ∧ ∃ c ∈ text.getLast?, isSpace c = false := by
    rcases List.eq_nil_or_concat raws with rfl | ⟨front, last, rfl⟩
    · exact absurd rfl hne
    · rw [List.concat_eq_append] at hraws ⊢
      have hlast := hraws last (by simp)
      refine ⟨(front.flatMap fun raw => raw ++ ['\n']) ++ last, by simp, ?_, ?_⟩
      · by_cases hfront : front = []
        · subst hfront
          rcases List.exists_cons_of_ne_nil hlast.1 with ⟨c, rest, hc⟩
          rw [hc] at hlast ⊢
          exact ⟨c, rfl, (hlast.2 c List.mem_cons_self).not_space⟩
        · rcases head?_flatMap (fun raw hraw => (hraws raw (by simp [hraw])).1) hfront last with
            ⟨raw, hraw, c, hc, hhead⟩
          exact ⟨c, hhead, ((hraws raw (by simp [hraw])).2 c hc).not_space⟩
      · rw [List.getLast?_append_of_ne_nil _ hlast.1, List.getLast?_eq_some_getLast hlast.1]
        exact ⟨_, rfl, (hlast.2 _ (List.getLast_mem hlast.1)).not_space⟩
  rcases htext with ⟨text, htext, hfirst, hend⟩
  have hlines : ∀ raw ∈ raws, ∀ c ∈ raw, isLineBreak c = false := by
    intro raw hraw c hc
    have hgraphic := (hraws raw hraw).2 c hc
    exact not_lineBreak ⟨by have := hgraphic.1; omega, hgraphic.2⟩
  rw [parseResponse, htext, splitlines_strip hfirst hend, ← htext, splitlines_flatMap hlines]

/-- A newline at the end makes no difference. -/
theorem parseResponse_concat {text : List Char} (hfirst : ∃ c ∈ text.head?, isSpace c = false) :
    (parseResponse (text ++ ['\n']) : Response D) = parseResponse text := by
  rw [parseResponse, parseResponse, strip_concat rfl hfirst]

/-! ## The dictionary of the beginning of a reply -/

section Front

variable {front : List (List Char × List Char)} {line : List Char × List Char}
  (hfront : ∀ l ∈ front, GraphicLine l) (hline : GraphicLine line)

include hfront

/-- The texts of the lines are not empty and have no blanks. -/
theorem graphic_map_lineText :
    ∀ raw ∈ front.map lineText, raw ≠ [] ∧ ∀ c ∈ raw, Graphic c := by
  intro raw hraw
  rcases List.mem_map.mp hraw with ⟨l, hl, rfl⟩
  exact ⟨by simp [lineText], (hfront l hl).graphic⟩

/-- The lines are entered into the dictionary one after the other. -/
theorem foldl_lineText :
    (front.map lineText).foldl parseLine (fun _ => none) =
      (assign (fun _ => none) front : Response D) :=
  foldl_parseLine _ fun l hl => (hfront l hl).plainLine

/-- The dictionary of whole lines and of one more line. -/
theorem parseResponse_linesText_append {raw : List Char} (hne : raw ≠ [])
    (hraw : ∀ c ∈ raw, Graphic c) :
    (parseResponse (linesText front ++ raw) : Response D) =
      parseLine (assign (fun _ => none) front) raw := by
  have hraws : ∀ r ∈ front.map lineText ++ [raw], r ≠ [] ∧ ∀ c ∈ r, Graphic c := by
    intro r hr
    rcases List.mem_append.mp hr with hr | hr
    · exact graphic_map_lineText hfront r hr
    · rw [List.mem_singleton.mp hr]
      exact ⟨hne, hraw⟩
  have htext : linesText front ++ raw ++ ['\n'] =
      (front.map lineText ++ [raw]).flatMap fun r => r ++ ['\n'] := by
    rw [List.flatMap_append, List.flatMap_singleton, List.flatMap_map, linesText_eq_flatMap,
      List.append_assoc]
  have hfirst : ∃ c ∈ (linesText front ++ raw).head?, isSpace c = false := by
    by_cases hnil : front = []
    · subst hnil
      rcases List.exists_cons_of_ne_nil hne with ⟨c, rest, hc⟩
      rw [hc] at hraw ⊢
      exact ⟨c, rfl, (hraw c List.mem_cons_self).not_space⟩
    · have hmap := graphic_map_lineText hfront
      rcases head?_flatMap (fun r hr => (hmap r hr).1) (by simpa using hnil) raw with
        ⟨r, hr, c, hc, hhead⟩
      rw [List.flatMap_map] at hhead
      exact ⟨c, hhead, ((hmap r hr).2 c hc).not_space⟩
  rw [← parseResponse_concat hfirst, htext, parseResponse_flatMap (by simp) hraws,
    List.foldl_append, foldl_lineText hfront]
  rfl

/-- The dictionary of whole lines. -/
theorem parseResponse_linesText :
    (parseResponse (linesText front) : Response D) = assign (fun _ => none) front := by
  by_cases hne : front = []
  · subst hne
    rfl
  · have hparse := parseResponse_flatMap (D := D) (by simpa using hne)
      (graphic_map_lineText hfront)
    rw [List.flatMap_map] at hparse
    rw [linesText_eq_flatMap]
    exact hparse.trans (foldl_lineText hfront)

include hline

/-- The dictionary of some lines and the beginning of one more: the colon makes the difference. -/
theorem parseResponse_front (j : ℕ) :
    (parseResponse (linesText front ++ (lineText line).take j) : Response D) =
      if line.1.length < j then
        assign (fun _ => none) (front ++ [(line.1, line.2.take (j - line.1.length - 1))])
      else assign (fun _ => none) front := by
  split_ifs with hcolon
  · -- the cut line is a line again
    have hcut : (lineText line).take j =
        lineText (line.1, line.2.take (j - line.1.length - 1)) := by
      rw [lineText, List.take_append, List.take_of_length_le (by omega)]
      have hpos : j - line.1.length = (j - line.1.length - 1) + 1 := by omega
      rw [hpos, List.take_succ_cons]
      rfl
    have hgraphic := hline.take (j - line.1.length - 1)
    rw [hcut, parseResponse_linesText_append hfront (by simp [lineText]) hgraphic.graphic,
      lineText, hgraphic.plainLine.parseLine, assign, assign, List.foldl_append]
    rfl
  · have hcut : (lineText line).take j = line.1.take j := by
      rw [lineText, List.take_append_of_le_length (by omega)]
    rw [hcut]
    by_cases hnil : line.1.take j = []
    · rw [hnil, List.append_nil, parseResponse_linesText hfront]
    · have hkey : ∀ c ∈ line.1.take j, Graphic c ∧ c ≠ ':' :=
        fun c hc => hline.key c (List.mem_of_mem_take hc)
      have hcolon : ':' ∉ line.1.take j := fun hmem => (hkey _ hmem).2 rfl
      rw [parseResponse_linesText_append hfront hnil fun c hc => (hkey c hc).1, parseLine,
        if_neg hcolon]

end Front

/-! ## The beginning of a reply -/

/-- ASCII is decoded as it is. -/
theorem decodeAscii_eq_self {text : List Char} (h : ∀ c ∈ text, c.toNat < 128) :
    decodeAscii text = text :=
  (List.map_congr_left fun c hc => if_pos (h c hc)).trans (List.map_id _)

/-- The last line is entered last. -/
theorem assign_concat (lines : List (List Char × List Char)) (line : List Char × List Char) :
    (assign (fun _ => none) (lines ++ [line]) : Response D) =
      Function.update (assign (fun _ => none) lines) line.1 (some (coerce line.2)) := by
  rw [assign, List.foldl_append]
  rfl

/-- The length of a text, with its last line apart. -/
theorem length_linesText_concat (lines : List (List Char × List Char))
    (line : List Char × List Char) :
    (linesText (lines ++ [line])).length =
      (linesText lines).length + (line.1.length + 1 + line.2.length) + 1 := by
  simp only [linesText_eq_flatMap, List.flatMap_append, List.flatMap_singleton, lineText,
    List.length_append, List.length_cons, List.length_nil]
  omega

section Beginning

variable {front : List (List Char × List Char)} {last : List Char × List Char}
  (hlines : ∀ l ∈ front ++ [last], GraphicLine l)

include hlines

/-- The text of such lines is ASCII. -/
theorem ascii_linesText : ∀ c ∈ linesText (front ++ [last]), c.toNat < 128 := by
  intro c hc
  rw [linesText_eq_flatMap, List.mem_flatMap] at hc
  rcases hc with ⟨line, hline, hc⟩
  rw [List.mem_append, List.mem_singleton] at hc
  rcases hc with hc | rfl
  · have hgraphic := ((hlines line hline).graphic c hc).2
    omega
  · decide

/-- The beginning of a reply has the dictionary of the reply if and only if it reaches behind the
last colon and what it has of the last value is read like the value. -/
theorem executeCmd_take_iff (hkey : ∀ l ∈ front, l.1 ≠ last.1) {m : ℕ}
    (hm : m ≤ (linesText (front ++ [last])).length) :
    (executeCmd ((linesText (front ++ [last])).take m) : Response D) =
        executeCmd (linesText (front ++ [last])) ↔
      (linesText (front ++ [last])).length ≤ m + 1 + last.2.length ∧
        (coerce (last.2.take (m + 1 + last.2.length - (linesText (front ++ [last])).length)) :
          PyValue D) = coerce last.2 := by
  have hascii := ascii_linesText hlines
  have hdecode : decodeAscii ((linesText (front ++ [last])).take m) =
      (linesText (front ++ [last])).take m :=
    decodeAscii_eq_self fun c hc => hascii c (List.mem_of_mem_take hc)
  rw [executeCmd, executeCmd, hdecode, decodeAscii_eq_self hascii,
    parseResponse_linesText hlines]
  have hlength := length_linesText_concat front last
  by_cases hend : m = (linesText (front ++ [last])).length
  · rw [hend, List.take_length, parseResponse_linesText hlines]
    refine iff_of_true rfl ⟨by omega, ?_⟩
    rw [List.take_of_length_le (by omega)]
  · have hlt : m < ((front ++ [last]).flatMap fun line => lineText line ++ ['\n']).length := by
      rw [← linesText_eq_flatMap]
      omega
    rcases take_lines '\n' lineText hlt with ⟨fr, line, back, j, hsplit, hj, hmj, htake⟩
    simp only [← linesText_eq_flatMap] at hmj htake
    have hmissing : ∀ lines : List (List Char × List Char), (∀ l ∈ lines, l.1 ≠ last.1) →
        (assign (fun _ => none) lines : Response D) ≠ assign (fun _ => none) (front ++ [last]) := by
      intro lines hkeys heq
      have hfound := congrFun heq last.1
      rw [assign_of_not_mem _ hkeys, assign_concat, Function.update_self] at hfound
      cases hfound
    rcases List.eq_nil_or_concat back with rfl | ⟨back, b, rfl⟩
    · rcases List.append_inj' hsplit rfl with ⟨rfl, hline⟩
      cases hline
      rw [htake, parseResponse_front (fun l hl => hlines l (by simp [hl])) (hlines _ (by simp))]
      split_ifs with hcolon
      · have hindex : m + 1 + last.2.length - (linesText (front ++ [last])).length =
            j - last.1.length - 1 := by
          omega
        rw [hindex, assign_concat, assign_concat]
        constructor
        · intro heq
          have hfound := congrFun heq last.1
          rw [Function.update_self, Function.update_self, Option.some_inj] at hfound
          exact ⟨by omega, hfound⟩
        · rintro ⟨-, hvalue⟩
          rw [hvalue]
      · exact iff_of_false (hmissing front hkey) fun h => by omega
    · -- the cut is in a line before the last one
      rw [List.concat_eq_append, ← List.cons_append, ← List.append_assoc] at hsplit
      rcases List.append_inj' hsplit rfl with ⟨rfl, hlast⟩
      cases hlast
      have hfr : ∀ l ∈ fr, GraphicLine l := fun l hl => hlines l (by simp [hl])
      have hkeys : ∀ l ∈ fr, l.1 ≠ last.1 := fun l hl => hkey l (by simp [hl])
      have hbefore : m + 1 + last.2.length < (linesText (fr ++ line :: back ++ [last])).length := by
        have hfront : (linesText (fr ++ line :: back)).length =
            (linesText fr).length + ((lineText line).length + 1) + (linesText back).length := by
          simp only [linesText_eq_flatMap, List.flatMap_append, List.flatMap_cons,
            List.length_append, List.length_singleton]
          omega
        omega
      refine iff_of_false ?_ fun h => by omega
      rw [htake, parseResponse_front hfr (hlines line (by simp))]
      split_ifs
      · apply hmissing
        intro l hl
        rcases List.mem_append.mp hl with hl | hl
        · exact hkeys l hl
        · rw [List.mem_singleton.mp hl]
          exact hkey line (by simp)
      · exact hmissing fr hkeys

end Beginning

/-! ## The beginning of a reply of the server -/

/-- Python reads the two texts as the same number, or they are the same. -/
def SameValue (D : Type) [PyFloat D] (part value : List Char) : Prop :=
  part = value ∨ (∃ z, int part = some z ∧ int value = some z) ∨
    int part = none ∧ int value = none ∧
      ∃ x : D, PyFloat.parse part = some x ∧ PyFloat.parse value = some x

theorem coerce_int {text : List Char} {z : ℤ} (h : int text = some z) :
    (coerce text : PyValue D) = .int z := by
  rw [coerce, h]

theorem coerce_float {text : List Char} (h : int text = none) {x : D}
    (hx : PyFloat.parse text = some x) : coerce text = .float x := by
  rw [coerce, h, hx]

theorem coerce_str {text : List Char} (h : int text = none)
    (hx : (PyFloat.parse text : Option D) = none) : (coerce text : PyValue D) = .str text := by
  rw [coerce, h, hx]

/-- Two texts have the same Python value if and only if they are read as the same number or are the
same text. -/
theorem coerce_eq_iff {part value : List Char} :
    (coerce part : PyValue D) = coerce value ↔ SameValue D part value := by
  constructor
  · intro heq
    cases hpart : int part with
    | some z =>
        rw [coerce_int hpart] at heq
        cases hvalue : int value with
        | some z' =>
            rw [coerce_int hvalue] at heq
            cases heq
            exact .inr (.inl ⟨z, hpart, hvalue⟩)
        | none =>
            cases hy : (PyFloat.parse value : Option D) with
            | some y => rw [coerce_float hvalue hy] at heq; cases heq
            | none => rw [coerce_str hvalue hy] at heq; cases heq
    | none =>
        cases hx : (PyFloat.parse part : Option D) with
        | some x =>
            rw [coerce_float hpart hx] at heq
            cases hvalue : int value with
            | some z => rw [coerce_int hvalue] at heq; cases heq
            | none =>
                cases hy : (PyFloat.parse value : Option D) with
                | some y =>
                    rw [coerce_float hvalue hy] at heq
                    cases heq
                    exact .inr (.inr ⟨hpart, hvalue, x, hx, hy⟩)
                | none => rw [coerce_str hvalue hy] at heq; cases heq
        | none =>
            rw [coerce_str hpart hx] at heq
            cases hvalue : int value with
            | some z => rw [coerce_int hvalue] at heq; cases heq
            | none =>
                cases hy : (PyFloat.parse value : Option D) with
                | some y => rw [coerce_float hvalue hy] at heq; cases heq
                | none =>
                    rw [coerce_str hvalue hy] at heq
                    cases heq
                    exact .inl rfl
  · rintro (rfl | ⟨z, hpart, hvalue⟩ | ⟨hpart, hvalue, x, hx, hy⟩)
    · rfl
    · rw [coerce_int hpart, coerce_int hvalue]
    · rw [coerce_float hpart hx, coerce_float hvalue hy]

/-- The value in the last line of a reply. -/
def lastValue (reply : List Char) : List Char :=
  reply.dropLast.rtakeWhile (· ≠ ':')

/-- The first {lit}`m` characters of a reply reach into its last value, and what they have of it
is read as the value. -/
def ReplySeen (D : Type) [PyFloat D] (reply : List Char) (m : ℕ) : Prop :=
  reply.length ≤ m + 1 + (lastValue reply).length ∧
    SameValue D ((lastValue reply).take (m + 1 + (lastValue reply).length - reply.length))
      (lastValue reply)

/-- A value without a colon is what comes after the last colon. -/
theorem lastValue_linesText {front : List (List Char × List Char)} {last : List Char × List Char}
    (hlast : ':' ∉ last.2) : lastValue (linesText (front ++ [last])) = last.2 := by
  have hdrop : (linesText (front ++ [last])).dropLast =
      (linesText front ++ last.1 ++ [':']) ++ last.2 := by
    rw [linesText_eq_flatMap, List.flatMap_append, List.flatMap_singleton, ← List.append_assoc,
      List.dropLast_concat, lineText, linesText_eq_flatMap, List.append_assoc, List.append_assoc]
    rfl
  have hall : ∀ c ∈ last.2, (c ≠ ':' : Bool) = true := by
    intro c hc
    rw [decide_eq_true_eq]
    rintro rfl
    exact hlast hc
  rw [lastValue, hdrop, List.rtakeWhile, List.reverse_append,
    List.takeWhile_append_of_pos fun c hc => hall c (List.mem_reverse.mp hc), List.reverse_append]
  simp

section ServerReply

variable {F : Type} [MixedPrecision F]

/-- An integer is printed without a colon. -/
theorem colon_not_mem_formatInt (z : ℤ) : ':' ∉ formatInt z := by
  have hdigits : ':' ∉ Nat.toDigits 10 z.natAbs := fun hmem =>
    absurd (Nat.isDigit_of_mem_toDigits (by omega) (by omega) hmem) (by decide)
  unfold formatInt
  split_ifs
  · rw [List.mem_cons, not_or]
    exact ⟨by decide, hdigits⟩
  · exact hdigits

/-- No value is printed with a colon. -/
theorem colon_not_mem_format (data : OutputData F) : ':' ∉ data.format := by
  cases data with
  | float x =>
      intro hmem
      rcases MixedPrecision.toText_chars x _ hmem with h | h | h
      · exact absurd h (by decide)
      · exact absurd h (by decide)
      · exact absurd h (by decide)
  | int i => exact colon_not_mem_formatInt _
  | uint u =>
      exact fun hmem => absurd (Nat.isDigit_of_mem_toDigits (by omega) (by omega) hmem) (by decide)

/-- All lines of a reply. -/
def allLines (name : List Char) (r : Reply F) : List (List Char × List Char) :=
  (['t', 'y', 'p', 'e'], ['o', 'u', 't', 'p', 'u', 't']) :: (['n', 'a', 'm', 'e'], name) ::
    replyLines r

/-- The reply of the server is made of lines. -/
theorem responseText_eq_linesText (name : List Char) (r : Reply F) :
    responseText name r = linesText (allLines name r) := by
  simp only [responseText, allLines, replyLines, linesText, List.flatMap_cons, List.flatMap_map,
    List.append_assoc]

/-- No line of a reply has a blank, if the name of the request has none. -/
theorem graphicLine_of_mem {name : List Char} (hname : ∀ c ∈ name, Graphic c) {r : Reply F}
    (hr : PlainReply r) : ∀ line ∈ allLines name r, GraphicLine line := by
  have hword : ∀ {key : List Char}, (key.all fun c => c.isAlphanum) = true →
      ∀ c ∈ key, Graphic c ∧ c ≠ ':' := by
    intro key hkey c hc
    have halphanum := List.all_eq_true.mp hkey c hc
    refine ⟨graphic_of_alphanum halphanum, ?_⟩
    rintro rfl
    exact absurd halphanum (by decide)
  intro line hline
  simp only [allLines, replyLines, List.mem_cons, List.mem_map] at hline
  rcases hline with rfl | rfl | rfl | ⟨o, ho, rfl⟩
  · exact ⟨by simp, hword rfl, fun c hc => (hword rfl c hc).1⟩
  · exact ⟨by simp, hword rfl, hname⟩
  · exact ⟨by simp, hword rfl, graphic_formatInt r.returnCode⟩
  · rcases hr o ho with ⟨hne, hchars, -⟩
    refine ⟨hne, fun c hc => ?_, graphic_format o.data⟩
    rcases hchars c hc with halphanum | rfl
    · refine ⟨graphic_of_alphanum halphanum, ?_⟩
      rintro rfl
      exact absurd halphanum (by decide)
    · exact ⟨⟨by decide, by decide⟩, by decide⟩

/-- The keys of a reply are distinct. -/
theorem nodup_allLines (name : List Char) {r : Reply F} (hr : PlainReply r) (hd : Distinct r) :
    ((allLines name r).map Prod.fst).Nodup := by
  have hkeys : ((r.outputItems.map fun o => (o.name.toList, o.data.format)).map Prod.fst) =
      (outputNames r).map String.toList := by
    rw [outputNames, List.map_map, List.map_map]
    rfl
  have hhead : ∀ s ∈ ["type", "name", "status"], s.toList ∉ (outputNames r).map String.toList := by
    intro s hs hmem
    rcases List.mem_map.mp hmem with ⟨name, hname, heq⟩
    rcases List.mem_map.mp hname with ⟨o, ho, rfl⟩
    rw [String.toList_inj] at heq
    exact (hr o ho).2.2 (heq ▸ hs)
  have htype := hhead "type" (by simp)
  have hname := hhead "name" (by simp)
  have hstatus := hhead "status" (by simp)
  rw [allLines, replyLines, List.map_cons, List.map_cons, List.map_cons, hkeys]
  refine List.nodup_cons.mpr ⟨?_, List.nodup_cons.mpr ⟨?_, List.nodup_cons.mpr ⟨hstatus, ?_⟩⟩⟩
  · simpa using htype
  · simpa using hname
  · exact hd.map fun _ _ => String.toList_inj.mp

/-- The beginning of a reply has the dictionary of the reply if and only if it reaches into the
last value and has it read as the value. -/
theorem executeCmd_take_responseText {name : List Char} (hname : ∀ c ∈ name, Graphic c)
    {r : Reply F} (hr : PlainReply r) (hd : Distinct r) {m : ℕ}
    (hm : m ≤ (responseText name r).length) :
    (executeCmd ((responseText name r).take m) : Response D) = executeCmd (responseText name r) ↔
      ReplySeen D (responseText name r) m := by
  have hlines := graphicLine_of_mem hname hr
  have hnodup := nodup_allLines name hr hd
  have hcolon : ∀ line ∈ replyLines r, ':' ∉ line.2 := by
    intro line hline
    simp only [replyLines, List.mem_cons, List.mem_map] at hline
    rcases hline with rfl | ⟨o, ho, rfl⟩
    · exact colon_not_mem_formatInt r.returnCode
    · exact colon_not_mem_format o.data
  rw [responseText_eq_linesText] at hm ⊢
  have hsplit : ∃ front last, allLines name r = front ++ [last] ∧ last ∈ replyLines r := by
    rcases List.eq_nil_or_concat (replyLines r) with hnil | ⟨front, last, hlast⟩
    · cases hnil
    · rw [List.concat_eq_append] at hlast
      exact ⟨_ :: _ :: front, last, by rw [allLines, hlast]; rfl, by rw [hlast]; simp⟩
  rcases hsplit with ⟨front, last, hsplit, hmem⟩
  rw [hsplit] at hlines hnodup hm ⊢
  rw [List.map_append, List.nodup_append] at hnodup
  have hkey : ∀ l ∈ front, l.1 ≠ last.1 := fun l hl =>
    hnodup.2.2 _ (List.mem_map_of_mem hl) _ (List.mem_singleton_self _)
  rw [executeCmd_take_iff hlines hkey hm, ReplySeen, lastValue_linesText (hcolon last hmem),
    coerce_eq_iff]

end ServerReply

end Protocol
end PoundDreverHall
