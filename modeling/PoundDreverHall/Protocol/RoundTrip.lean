import PoundDreverHall.Protocol.Literals
import PoundDreverHall.Protocol.Status

/-!
# Protocol - requests and replies are read back

The client writes a request as a line with the name of the command, a line of floating-point
arguments and a line of unsigned ones; the server looks the lines up by their keys.  The server
writes a reply as one line for each value; the client splits it again.

Main results:

- Theorem {lit}`findKey_intercalate`: the line that the search for a key finds.
- Theorem {lit}`loadContext_requestText`: the server reads the name and the arguments back.
- Theorem {lit}`parseResponse_responseText`: the client reads the values back.
- Theorem {lit}`text_round_trips`: both directions.
-/

namespace PoundDreverHall
namespace Protocol

open Client PyString Requests Scan
open Server hiding isSpace

/-! ## Lines -/

/-- The lines after one, each behind its newline. -/
def linesAfter : List (List Char) → List Char
  | [] => []
  | line :: lines => '\n' :: ['\n'].intercalate (line :: lines)

/-- A line, and the lines after it. -/
theorem intercalate_cons (line : List Char) (lines : List (List Char)) :
    ['\n'].intercalate (line :: lines) = line ++ linesAfter lines := by
  cases lines with
  | nil => simp [linesAfter]
  | cons line' lines => rw [intercalate_cons_cons, linesAfter]

/-- What comes after a line starts with a newline, if there is something. -/
theorem linesAfter_eq (lines : List (List Char)) :
    linesAfter lines = [] ∨ ∃ rest, linesAfter lines = '\n' :: rest := by
  cases lines with
  | nil => exact .inl rfl
  | cons line lines => exact .inr ⟨_, rfl⟩

section FindKey

variable {key : List Char} (hkey : '\n' ∉ key)

include hkey

/-- A key is found in the first line or not at all. -/
theorem isPrefixOf_append (line rest : List Char) :
    key.isPrefixOf (line ++ '\n' :: rest) = key.isPrefixOf line := by
  induction key generalizing line with
  | nil => rfl
  | cons k key ih =>
      rw [List.mem_cons, not_or] at hkey
      cases line with
      | nil => simp [List.isPrefixOf, Ne.symm hkey.1]
      | cons c line => simp only [List.cons_append, List.isPrefixOf, ih hkey.2]

/-- So it is in a text of lines. -/
theorem isPrefixOf_linesAfter (line : List Char) (lines : List (List Char)) :
    key.isPrefixOf (line ++ linesAfter lines) = key.isPrefixOf line := by
  rcases linesAfter_eq lines with h | ⟨rest, h⟩
  · rw [h, List.append_nil]
  · rw [h, isPrefixOf_append hkey]

omit hkey in
/-- The rest of a line has no key in it. -/
theorem findKeyFrom_false {line : List Char} (hline : '\n' ∉ line) (lines : List (List Char)) :
    findKeyFrom key false (line ++ linesAfter lines) =
      findKeyFrom key true (['\n'].intercalate lines) := by
  induction line with
  | nil =>
      cases lines with
      | nil => rfl
      | cons line lines => rfl
  | cons c line ih =>
      rw [List.mem_cons, not_or] at hline
      rw [List.cons_append, findKeyFrom]
      simp only [Bool.false_and, Bool.false_eq_true, if_false, decide_eq_false (Ne.symm hline.1)]
      exact ih hline.2

/-- The search finds the first line with the key. -/
theorem findKey_intercalate (hne : key ≠ []) {lines : List (List Char)}
    (hlines : ∀ line ∈ lines, '\n' ∉ line) :
    findKey (['\n'].intercalate lines) key =
      match lines.dropWhile fun line => !key.isPrefixOf line with
      | [] => none
      | line :: rest => some ((line ++ linesAfter rest).drop key.length) := by
  unfold findKey
  induction lines with
  | nil => rfl
  | cons line lines ih =>
      have hrest := ih fun l hl => hlines l (List.mem_cons_of_mem _ hl)
      have hline := hlines line List.mem_cons_self
      have hprefix := isPrefixOf_linesAfter hkey line lines
      rw [intercalate_cons, List.dropWhile_cons]
      cases line with
      | nil =>
          have hnil : key.isPrefixOf [] = false := by
            cases key with
            | nil => exact absurd rfl hne
            | cons k key => rfl
          rw [hnil, Bool.not_false, if_pos rfl, ← hrest]
          cases lines with
          | nil => rfl
          | cons line' lines =>
              rw [List.nil_append, linesAfter, hnil] at hprefix
              rw [List.nil_append, linesAfter, findKeyFrom, hprefix]
              rfl
      | cons c line =>
          rw [List.cons_append] at hprefix
          rw [List.cons_append, findKeyFrom, hprefix, Bool.true_and]
          by_cases hfound : key.isPrefixOf (c :: line) = true
          · simp [hfound]
          · rw [List.mem_cons, not_or] at hline
            rw [Bool.not_eq_true] at hfound
            rw [hfound, Bool.not_false, if_neg Bool.false_ne_true, if_pos rfl, ← hrest,
              decide_eq_false (Ne.symm hline.1)]
            exact findKeyFrom_false hline.2 lines

end FindKey

/-! ## Requests -/

/-- A line of arguments with commas between them. -/
def argsLine (key : Char) (tokens : List (List Char)) : List Char :=
  key :: ':' :: [','].intercalate tokens

/-- The lines of a request; the lines of arguments are optional. -/
def requestLines (name : List Char) (floats uints : Option (List (List Char))) :
    List (List Char) :=
  (['C', 'M', 'D', ':'] ++ name) ::
    ((floats.map (argsLine 'F')).toList ++ (uints.map (argsLine 'U')).toList)

/-- The text of a request. -/
def requestText (name : List Char) (floats uints : Option (List (List Char))) : List Char :=
  (requestLines name floats uints).flatMap fun line => line ++ ['\n']

/-- A request that can be split at its newlines and commas. -/
structure PlainRequest (name : List Char) (floats uints : Option (List (List Char))) : Prop where
  newline : '\n' ∉ name
  nul : '\x00' ∉ name
  floats : ∀ token ∈ floats.getD [], ∀ c ∈ token, ¬Separator c
  uints : ∀ token ∈ uints.getD [], ∀ c ∈ token, ¬Separator c

/-- A line of numbers has no newline and no NUL. -/
theorem not_mem_argsLine {c key : Char} (hc : c = '\n' ∨ c = '\x00') (hkey : c ≠ key)
    {tokens : List (List Char)} (htokens : ∀ token ∈ tokens, ∀ c ∈ token, ¬Separator c) :
    c ∉ argsLine key tokens := by
  have hsep : Separator c := .inr hc
  have hcolon : c ≠ ':' := by rcases hc with rfl | rfl <;> decide
  have hcomma : c ≠ ',' := by rcases hc with rfl | rfl <;> decide
  have hargs : c ∉ [','].intercalate tokens :=
    not_mem_intercalate hcomma fun token htoken hmem => htokens token htoken c hmem hsep
  simp [argsLine, hkey, hcolon, hargs]

section Request

variable {name : List Char} {floats uints : Option (List (List Char))}
  (h : PlainRequest name floats uints)

include h

/-- Nor has any other line of a request. -/
theorem PlainRequest.not_mem {c : Char} (hc : c = '\n' ∨ c = '\x00') :
    ∀ line ∈ requestLines name floats uints, c ∉ line := by
  intro line hline
  simp only [requestLines, List.mem_cons, List.mem_append, Option.mem_toList,
    Option.map_eq_some_iff] at hline
  rcases hline with rfl | ⟨tokens, htokens, rfl⟩ | ⟨tokens, htokens, rfl⟩
  · rcases hc with rfl | rfl
    · simp [h.newline]
    · simp [h.nul]
  · apply not_mem_argsLine hc (by rcases hc with rfl | rfl <;> decide)
    simpa [htokens] using h.floats
  · apply not_mem_argsLine hc (by rcases hc with rfl | rfl <;> decide)
    simpa [htokens] using h.uints

/-- What the server reads of a request that arrives at once. -/
theorem PlainRequest.cString_dropLast :
    cString (requestText name floats uints).dropLast =
      ['\n'].intercalate (requestLines name floats uints) := by
  rw [requestText, dropLast_flatMap_concat, cString, List.takeWhile_eq_self_iff]
  intro c hc
  rw [decide_eq_true_eq]
  rintro rfl
  exact not_mem_intercalate (by decide) (h.not_mem (.inr rfl)) hc

/-- The server finds the name. -/
theorem PlainRequest.findKey_name :
    findKey (['\n'].intercalate (requestLines name floats uints)) ['C', 'M', 'D', ':'] =
      some (name ++ linesAfter (requestLines name floats uints).tail) := by
  rw [findKey_intercalate (by decide) (by decide) (h.not_mem (.inl rfl))]
  rfl

/-- It finds the floats, if there are some. -/
theorem PlainRequest.findKey_floats :
    findKey (['\n'].intercalate (requestLines name floats uints)) ['F', ':'] =
      floats.map fun tokens =>
        [','].intercalate tokens ++ linesAfter (uints.map (argsLine 'U')).toList := by
  rw [findKey_intercalate (by decide) (by decide) (h.not_mem (.inl rfl))]
  cases floats <;> cases uints <;> rfl

/-- It finds no signed numbers. -/
theorem PlainRequest.findKey_ints :
    findKey (['\n'].intercalate (requestLines name floats uints)) ['I', ':'] = none := by
  rw [findKey_intercalate (by decide) (by decide) (h.not_mem (.inl rfl))]
  cases floats <;> cases uints <;> rfl

/-- It finds the unsigned numbers, if there are some. -/
theorem PlainRequest.findKey_uints :
    findKey (['\n'].intercalate (requestLines name floats uints)) ['U', ':'] =
      uints.map [','].intercalate := by
  rw [findKey_intercalate (by decide) (by decide) (h.not_mem (.inl rfl))]
  cases floats <;> cases uints <;> simp [requestLines, argsLine, List.isPrefixOf, linesAfter]

end Request

/-! ## Reading a request back -/

section Load

variable {F : Type} [MixedPrecision F]

/-- The floating-point arguments of a request. -/
def floatsOf (ctx : LoadedCtx F) : List F :=
  (List.range ctx.numFloats).map ctx.floatArgs

/-- The unsigned arguments of a request. -/
def uintsOf (ctx : LoadedCtx F) : List (BitVec 32) :=
  (List.range ctx.numUints).map ctx.uintArgs

theorem map_range_getD {α : Type} (xs : List α) (d : α) :
    ((List.range xs.length).map fun i => xs.getD i d) = xs := by
  apply List.ext_getElem
  · simp
  · intro i hi hi'
    simp [List.getElem?_eq_getElem hi']

/-- The request behind the text that a client renders, from the tokens of its two lists. -/
theorem loadContext_intercalate {name : List Char} {floats uints : Option (List (List Char))}
    (h : PlainRequest name floats uints) (hname : name.length < 256)
    {fs : List F} {us : List (BitVec 32)}
    (hfloats : argsOf parseFloats (['\n'].intercalate (requestLines name floats uints))
      ['F', ':'] = fs)
    (huints : argsOf parseUints (['\n'].intercalate (requestLines name floats uints))
      ['U', ':'] = us) :
    ∃ ctx : LoadedCtx F,
      loadContext (['\n'].intercalate (requestLines name floats uints)) = some ctx ∧
        ctx.name = name ∧ floatsOf ctx = fs ∧ ctx.numInts = 0 ∧ uintsOf ctx = us := by
  have hcommand : (name ++ linesAfter (requestLines name floats uints).tail).takeWhile
      (· ≠ '\n') = name := by
    have hall : ∀ c ∈ name, (c ≠ '\n' : Bool) = true := by
      intro c hc
      rw [decide_eq_true_eq]
      rintro rfl
      exact h.newline hc
    rw [List.takeWhile_append_of_pos hall]
    rcases linesAfter_eq (requestLines name floats uints).tail with htail | ⟨rest, htail⟩
    · rw [htail]; simp
    · rw [htail]; simp
  unfold loadContext
  rw [h.findKey_name, Option.map_some]
  refine ⟨_, rfl, ?_, ?_, ?_, ?_⟩
  · simp only [hcommand]
    exact List.take_of_length_le (by omega)
  · simp only [floatsOf, hfloats]
    exact map_range_getD fs _
  · simp [argsOf, h.findKey_ints]
  · simp only [uintsOf, huints]
    exact map_range_getD us _

/-- An empty line of floating-point arguments in front of a line of unsigned ones. -/
theorem strtof_emptyLine (rest : List Char) :
    (strtof ('\n' :: 'U' :: rest) : Option (F × List Char)) = none := by
  have hlower : 'U'.toLower = 'u' := by decide
  have hdigit : 'U'.isDigit = false := by decide
  have hscan : scanFloat ('\n' :: 'U' :: rest) = none := by
    have hdrop : ('\n' :: 'U' :: rest).dropWhile Server.isSpace = 'U' :: rest := rfl
    rw [scanFloat_eq, hdrop]
    simp [scanNumber, takeSign, scanInfinity, scanNan, scanWord, hlower, scanHexadecimal,
      scanDecimal, scanMantissa, hdigit]
  rw [strtof, hscan]
  rfl

/-- The text that the first `read` of a connection takes from what the client sends. -/
def readAtOnce (sent : List Char) : List Char :=
  sent.take 1024

/-- Arguments that are read back: literals, and at most ten numbers of 32 bits. -/
structure ReadableArgs (floats : Option (List (List Char))) (uints : Option (List ℕ)) : Prop where
  literals : ∀ token ∈ floats.getD [], FloatLiteral token
  few : (uints.getD []).length ≤ 10
  small : ∀ n ∈ uints.getD [], n < 2 ^ 32

/-- The server reads the name and the arguments of a request back. -/
theorem loadContext_requestText {name : List Char} {floats : Option (List (List Char))}
    {uints : Option (List ℕ)} (hnewline : '\n' ∉ name) (hnul : '\x00' ∉ name)
    (hname : name.length < 256) (hargs : ReadableArgs floats uints)
    (hlength : (requestText name floats (uints.map (·.map (Nat.toDigits 10)))).length ≤ 1024) :
    ∃ ctx : LoadedCtx F,
      loadContext (cString (readAtOnce
        (requestText name floats (uints.map (·.map (Nat.toDigits 10))))).dropLast) = some ctx ∧
      ctx.name = name ∧
      floatsOf ctx = ((floats.getD []).take 64).map MixedPrecision.ofText ∧
      ctx.numInts = 0 ∧
      uintsOf ctx = (uints.getD []).map (BitVec.ofNat 32) := by
  have hfloat : ∀ token ∈ floats.getD [], Token strtof token (MixedPrecision.ofText token : F) :=
    fun token htoken => (hargs.literals token htoken).isToken
  have huint : ∀ n ∈ uints.getD [], Token strtoul (Nat.toDigits 10 n) (BitVec.ofNat 32 n) :=
    fun n hn => token_toDigits (hargs.small n hn)
  have hplain : PlainRequest name floats (uints.map (·.map (Nat.toDigits 10))) := by
    refine ⟨hnewline, hnul, fun token htoken => (hfloat token htoken).no_separator, ?_⟩
    intro token htoken
    cases uints with
    | none => exact absurd htoken List.not_mem_nil
    | some us =>
        rcases List.mem_map.mp htoken with ⟨n, hn, rfl⟩
        exact (huint n hn).no_separator
  rw [readAtOnce, List.take_of_length_le hlength, hplain.cString_dropLast]
  apply loadContext_intercalate hplain hname
  · rw [argsOf, hplain.findKey_floats]
    cases floats with
    | none => rfl
    | some tokens =>
        apply parseArgs_intercalate (linesAfter_eq _) hfloat
        intro _ htail
        cases uints with
        | none => exact absurd rfl htail
        | some us => exact strtof_emptyLine _
  · rw [argsOf, hplain.findKey_uints]
    cases uints with
    | none => rfl
    | some us =>
        have htokens : ∀ token ∈ us.map (Nat.toDigits 10),
            Token strtoul token (BitVec.ofNat 32 (Nat.ofDigitChars 10 token 0)) := by
          intro token htoken
          rcases List.mem_map.mp htoken with ⟨n, hn, rfl⟩
          rw [Nat.ofDigitChars_ten_toDigits]
          exact huint n hn
        have hread := parseArgs_intercalate (.inl rfl) htokens (fun _ h => absurd rfl h) 10
        rw [List.append_nil, List.take_of_length_le (by simpa using hargs.few),
          List.map_map] at hread
        refine hread.trans (List.map_congr_left fun n _ => ?_)
        exact congrArg (BitVec.ofNat 32) Nat.ofDigitChars_ten_toDigits

end Load

/-! ## Reading a reply back -/

section Reply

variable {F : Type} [MixedPrecision F] {D : Type} [PyFloat D]

/-- The value of an output that is an integer. -/
def intValue : OutputData F → Option ℤ
  | .float _ => none
  | .int i => some i.toInt
  | .uint u => some u.toNat

/-- Outputs that are found under their names. -/
structure ReadableReply (r : Reply F) : Prop where
  readable : ReadableNames r
  distinct : (r.outputItems.map fun o => o.name).Nodup
  not_status : ∀ o ∈ r.outputItems, o.name ≠ "status"

/-- An integer is read back as the number it is. -/
theorem coerce_format {data : OutputData F} {z : ℤ} (h : intValue data = some z) :
    (coerce data.format : PyValue D) = .int z := by
  cases data with
  | float x => cases h
  | int i =>
      cases h
      exact coerce_formatInt _
  | uint u =>
      cases h
      exact coerce_formatUnsigned u

/-- No key of a reply is used twice. -/
theorem ReadableReply.nodup_keys {r : Reply F} (h : ReadableReply r) :
    ((replyLines r).map Prod.fst).Nodup := by
  rw [replyLines, List.map_cons, List.map_map, List.nodup_cons]
  constructor
  · intro hmem
    rcases List.mem_map.mp hmem with ⟨o, ho, hname⟩
    have hstatus : ['s', 't', 'a', 't', 'u', 's'] = "status".toList := by decide
    exact h.not_status o ho (String.toList_inj.mp (hname.trans hstatus))
  · have hkeys : (Prod.fst ∘ fun o : OutputItem F => (o.name.toList, o.data.format)) =
        String.toList ∘ fun o => o.name := rfl
    rw [hkeys, ← List.map_map]
    exact h.distinct.map fun _ _ => String.toList_inj.mp

/-- The client reads the values of a reply back. -/
theorem parseResponse_responseText (name : List Char) {r : Reply F} (h : ReadableReply r) :
    (∀ o ∈ r.outputItems, ∀ z, intValue o.data = some z →
        (parseResponse (responseText name r) : Response D) o.name.toList = some (.int z)) ∧
      (parseResponse (responseText name r) : Response D) ['s', 't', 'a', 't', 'u', 's'] =
        some (.int r.returnCode) := by
  have hdict : ∃ start : Response D,
      parseResponse (responseText name r) = assign start (replyLines r) := by
    rw [responseText_eq]
    exact ⟨_, parseResponse_append ⟨'t', rfl, rfl⟩ (List.cons_ne_nil _ _)
      (plainLine_of_mem h.readable)⟩
  rcases hdict with ⟨start, hdict⟩
  have hfound : ∀ line ∈ replyLines r,
      assign start (replyLines r) line.1 = some (coerce line.2) :=
    fun line hline => assign_of_mem start h.nodup_keys hline
  rw [hdict]
  constructor
  · intro o ho z hz
    rw [hfound (o.name.toList, o.data.format)
      (List.mem_cons_of_mem _ (List.mem_map.mpr ⟨o, ho, rfl⟩)), coerce_format hz]
  · rw [hfound (['s', 't', 'a', 't', 'u', 's'], formatInt r.returnCode) List.mem_cons_self,
      coerce_formatInt]

end Reply

/-! ## Both directions -/

/-- The text protocol in both directions.  The server reads the name, the first 64 floating-point
arguments and the unsigned arguments back from the text of a request, and the client reads the
integers and the return code back from the text of a reply. -/
theorem text_round_trips {F : Type} [MixedPrecision F] {D : Type} [PyFloat D] :
    (∀ (name : List Char) (floats : Option (List (List Char))) (uints : Option (List ℕ)),
      '\n' ∉ name → '\x00' ∉ name → name.length < 256 → ReadableArgs floats uints →
        (requestText name floats (uints.map (·.map (Nat.toDigits 10)))).length ≤ 1024 →
        ∃ ctx : LoadedCtx F,
          loadContext (cString (readAtOnce
            (requestText name floats (uints.map (·.map (Nat.toDigits 10))))).dropLast) =
              some ctx ∧
          ctx.name = name ∧
          floatsOf ctx = ((floats.getD []).take 64).map MixedPrecision.ofText ∧
          ctx.numInts = 0 ∧
          uintsOf ctx = (uints.getD []).map (BitVec.ofNat 32)) ∧
    (∀ (name : List Char) (r : Reply F) (text : List Char), ReadableReply r →
      sendResponse name r = some text →
        (∀ o ∈ r.outputItems, ∀ z, intValue o.data = some z →
          (parseResponse text : Response D) o.name.toList = some (.int z)) ∧
        (parseResponse text : Response D) ['s', 't', 'a', 't', 'u', 's'] =
          some (.int r.returnCode)) := by
  constructor
  · intro name floats uints hnewline hnul hname hargs hlength
    exact loadContext_requestText hnewline hnul hname hargs hlength
  · intro name r text hr htext
    unfold sendResponse at htext
    split_ifs at htext
    cases htext
    exact parseResponse_responseText name hr

/-- The name of `cmd_set_dac`. -/
def setDacName : List Char := ['s', 'e', 't', '_', 'd', 'a', 'c']

/-- A reply with two integers. -/
def twoOutputs : Reply ℚ where
  returnCode := 0
  outputItems := [⟨"DAC_CB", .uint 5#32⟩, ⟨"RAW CB", .int 0xFFFFFFFF#32⟩]

theorem readableReply_twoOutputs : ReadableReply twoOutputs where
  readable := by
    have hprintable : ∀ name : String,
        (name.toList.all fun c => (0x20 ≤ c.toNat ∧ c.toNat ≤ 0x7E : Bool)) = true →
          ∀ c ∈ name.toList, 0x20 ≤ c.toNat ∧ c.toNat ≤ 0x7E := by
      intro name h c hc
      simpa using List.all_eq_true.mp h c hc
    intro o ho
    rcases List.mem_cons.mp ho with rfl | ho
    · exact ⟨by decide, by decide, hprintable "DAC_CB" (by decide)⟩
    · rw [List.mem_singleton.mp ho]
      exact ⟨by decide, by decide, hprintable "RAW CB" (by decide)⟩
  distinct := by decide
  not_status := by decide

/-- Both directions, for half a volt on the second converter. -/
theorem text_round_trips_setDac :
    (∃ ctx : LoadedCtx ℚ,
      loadContext (cString (readAtOnce (requestText setDacName (some [['0', '.', '5']])
        (some ([1].map (Nat.toDigits 10))))).dropLast) = some ctx ∧
      ctx.name = setDacName ∧
      floatsOf ctx = [MixedPrecision.ofText ['0', '.', '5']] ∧
      ctx.numInts = 0 ∧
      uintsOf ctx = [1#32]) ∧
    (∃ text, sendResponse setDacName twoOutputs = some text ∧
      (parseResponse text : Response ℚ) ['R', 'A', 'W', ' ', 'C', 'B'] = some (.int (-1)) ∧
      (parseResponse text : Response ℚ) ['s', 't', 'a', 't', 'u', 's'] = some (.int 0)) := by
  constructor
  · refine text_round_trips (D := ℚ).1 setDacName (some [['0', '.', '5']]) (some [1]) (by decide)
      (by decide) (by decide) ⟨?_, by decide, by decide⟩ (by decide)
    intro token htoken
    rw [List.mem_singleton.mp htoken]
    change FloatLiteral ([] ++ (['0'] ++ (['.', '5'] ++ [])))
    exact floatLiteral_decimal (.inl rfl) ⟨by simp, by simp⟩ (.inr ⟨['5'], rfl, by simp⟩)
      (.inl rfl)
  · have hsend : sendResponse setDacName twoOutputs =
        some (responseText setDacName twoOutputs) := by decide
    have hback := text_round_trips (D := ℚ).2 setDacName twoOutputs _ readableReply_twoOutputs hsend
    exact ⟨_, hsend, hback.1 ⟨"RAW CB", .int 0xFFFFFFFF#32⟩ (by simp [twoOutputs]) _ rfl, hback.2⟩

/-- A name with a zero byte ends there. -/
theorem nul_ends_name :
    ¬∃ ctx : LoadedCtx ℚ,
      loadContext (cString (readAtOnce (requestText ['a', '\x00', 'b'] none none)).dropLast) =
        some ctx ∧ ctx.name = ['a', '\x00', 'b'] := by
  rintro ⟨ctx, hload, hname⟩
  have hshort : (loadContext (cString (readAtOnce
      (requestText ['a', '\x00', 'b'] none none)).dropLast) :
        Option (LoadedCtx ℚ)).map (·.name) = some ['a'] := by decide
  rw [hload, Option.map_some, hname] at hshort
  exact absurd hshort (by decide)

end Protocol
end PoundDreverHall
