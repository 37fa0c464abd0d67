import PoundDreverHall.Protocol.PartialReply
import PoundDreverHall.Protocol.PartialRequest

/-!
# Protocol - requests and replies in pieces

The transport delivers the bytes of each direction in order, in pieces of any length.  The server
takes the first piece for the whole request, and the client takes the first piece for the whole
reply.  This file says which first pieces make no difference.

Main results:

- Definition {lit}`ApiCall`: the calls of the API and the texts that they send.
- Theorem {lit}`ApiCall.complete`: every call sends a complete request.
- Theorem {lit}`segmentation_iff`: an exchange is as it would be with whole texts if and only if
  its first pieces keep the last number.
-/

namespace PoundDreverHall
namespace Protocol

open Client Device Device.Program PyString Requests Scan
open Server hiding isSpace

/-! ## The calls of the API -/

/-- The text that `str` makes of a `float`: a number as {lit}`strtof` reads it. -/
structure FloatText where
  text : List Char
  literal : FloatLiteral text

/-- The calls of the API that send a request, with what they write into its text.  The functions
`api_set_fir` and `api_set_fir_coeffs` both send {lit}`setFir`, and the angle of
`api_set_rotation` is the one in radians. -/
inductive ApiCall where
  | resetFpga
  | setLed (value : ℤ)
  | getAdc
  | setDac (value : FloatText) (dacSel : ℤ)
  | checkSigned (regSel : ℤ)
  | setRotation (thetaRad : FloatText)
  | setNco (freq shiftDeg : FloatText) (en : ℤ)
  | setPid (kp kd ki sp : FloatText) (dec alpha sat en : ℤ) (gain bias egain : FloatText)
  | setFir (coeffs : List FloatText) (inputSel : ℤ)
  | configIo (dac1DatSel dac2DatSel pidDatSel : ℤ)
  | configDemod (refSel inSel lpfAlpha : ℤ)
  | getFrame (decimation frameCode : ℤ)
  | sweepRamp (v0 v1 : FloatText) (numPoints dacSel writeDelayUs demodMode : ℤ)

namespace ApiCall

/-- The name of the command. -/
def name : ApiCall → List Char
  | resetFpga => ['r', 'e', 's', 'e', 't', '_', 'f', 'p', 'g', 'a']
  | setLed .. => ['s', 'e', 't', '_', 'l', 'e', 'd']
  | getAdc => ['g', 'e', 't', '_', 'a', 'd', 'c']
  | setDac .. => ['s', 'e', 't', '_', 'd', 'a', 'c']
  | checkSigned .. => ['c', 'h', 'e', 'c', 'k', '_', 's', 'i', 'g', 'n', 'e', 'd']
  | setRotation .. => ['s', 'e', 't', '_', 'r', 'o', 't', 'a', 't', 'i', 'o', 'n']
  | setNco .. => ['s', 'e', 't', '_', 'n', 'c', 'o']
  | setPid .. => ['s', 'e', 't', '_', 'p', 'i', 'd']
  | setFir .. => ['s', 'e', 't', '_', 'f', 'i', 'r']
  | configIo .. => ['c', 'o', 'n', 'f', 'i', 'g', '_', 'i', 'o']
  | configDemod .. => ['c', 'o', 'n', 'f', 'i', 'g', '_', 'd', 'e', 'm', 'o', 'd']
  | getFrame .. => ['g', 'e', 't', '_', 'f', 'r', 'a', 'm', 'e']
  | sweepRamp .. => ['s', 'w', 'e', 'e', 'p', '_', 'r', 'a', 'm', 'p']

/-- The numbers in the line of floating-point arguments. -/
def floatArgs : ApiCall → Option (List FloatText)
  | setDac value _ => some [value]
  | setRotation thetaRad => some [thetaRad]
  | setNco freq shiftDeg _ => some [freq, shiftDeg]
  | setPid kp kd ki sp _ _ _ _ gain bias egain => some [kp, kd, ki, sp, gain, bias, egain]
  | setFir coeffs _ => some coeffs
  | sweepRamp v0 v1 _ _ _ _ => some [v0, v1]
  | _ => none

/-- The numbers in the line of unsigned arguments; the client does not check them. -/
def intArgs : ApiCall → Option (List ℤ)
  | setLed value => some [value]
  | setDac _ dacSel => some [dacSel]
  | checkSigned regSel => some [regSel]
  | setNco _ _ en => some [en]
  | setPid _ _ _ _ dec alpha sat en _ _ _ => some [dec, alpha, sat, en]
  | setFir _ inputSel => some [inputSel]
  | configIo dac1DatSel dac2DatSel pidDatSel => some [dac1DatSel, dac2DatSel, pidDatSel]
  | configDemod refSel inSel lpfAlpha => some [refSel, inSel, lpfAlpha]
  | getFrame decimation frameCode => some [decimation, frameCode]
  | sweepRamp _ _ numPoints dacSel writeDelayUs demodMode =>
      some [numPoints, dacSel, writeDelayUs, demodMode]
  | _ => none

/-- The line of floating-point arguments. -/
def floats (call : ApiCall) : Option (List (List Char)) :=
  call.floatArgs.map (·.map FloatText.text)

/-- The line of unsigned arguments. -/
def uints (call : ApiCall) : Option (List (List Char)) :=
  call.intArgs.map (·.map formatInt)

/-- The text of the request. -/
def text (call : ApiCall) : List Char :=
  requestText call.name call.floats call.uints

end ApiCall

theorem numeral_formatInt (z : ℤ) : Numeral strtoul (formatInt z) := by
  have hdigits := digits_toDigits z.natAbs
  unfold formatInt
  split_ifs
  · exact ⟨_, token_integer (.inr (.inl rfl)) hdigits⟩
  · exact ⟨_, token_integer (.inl rfl) hdigits⟩

/-- The entry of the table that a call is for, and what it says about the arguments. -/
theorem ApiCall.exists_entry (call : ApiCall) :
    ∃ e ∈ gCmds, e.name = call.name ∧ e.requiredFloats ≤ (call.floatArgs.getD []).length ∧
      e.requiredUints = (call.intArgs.getD []).length ∧ call.intArgs ≠ some [] ∧
      (call.intArgs = none →
        ∀ xs, call.floatArgs = some xs → xs.length = 1 ∧ e.requiredFloats = 1) := by
  cases call <;> simp [gCmds, ApiCall.name, ApiCall.floatArgs, ApiCall.intArgs]

/-- Every call sends a complete request. -/
theorem ApiCall.complete (call : ApiCall) :
    ∃ e, e.name = call.name ∧ CompleteRequest e call.floats call.uints := by
  rcases call.exists_entry with ⟨e, hmem, hname, hfloats, huints, hsome, hone⟩
  refine ⟨e, hname, hmem, ?_, ?_, ?_, ?_, ?_, ?_⟩
  · intro t ht
    unfold ApiCall.floats at ht
    cases hargs : call.floatArgs with
    | none =>
        rw [hargs] at ht
        cases ht
    | some xs =>
        rw [hargs] at ht
        rcases List.mem_map.mp ht with ⟨x, -, rfl⟩
        exact x.literal
  · intro t ht
    unfold ApiCall.uints at ht
    cases hargs : call.intArgs with
    | none =>
        rw [hargs] at ht
        cases ht
    | some zs =>
        rw [hargs] at ht
        rcases List.mem_map.mp ht with ⟨z, -, rfl⟩
        exact numeral_formatInt z
  · unfold ApiCall.floats
    cases hargs : call.floatArgs <;> simpa [hargs] using hfloats
  · unfold ApiCall.uints
    cases hargs : call.intArgs <;> simpa [hargs] using huints
  · intro hnil
    rcases Option.map_eq_some_iff.mp hnil with ⟨zs, hzs, hmap⟩
    rw [List.map_eq_nil_iff.mp hmap] at hzs
    exact hsome hzs
  · unfold ApiCall.uints ApiCall.floats
    intro hnone ts hts
    rcases Option.map_eq_some_iff.mp hts with ⟨xs, hxs, rfl⟩
    rw [List.length_map]
    exact hone (Option.map_eq_none_iff.mp hnone) xs hxs

/-! ## Pieces -/

/-- Pieces in which the transport hands a text over; none of them is empty. -/
structure Segments (text : List Char) (pieces : List (List Char)) : Prop where
  nonempty : ∀ piece ∈ pieces, piece ≠ []
  whole : pieces.flatten = text

/-- The first piece; without one the other side has closed the connection. -/
def firstPiece (pieces : List (List Char)) : List Char :=
  pieces.headD []

/-- The text that the one `recv` of the client takes from what the server sends. -/
def recvAtOnce (sent : List Char) : List Char :=
  sent.take 4096

theorem Segments.firstPiece_eq {text : List Char} {pieces : List (List Char)}
    (h : Segments text pieces) : firstPiece pieces = text.take (firstPiece pieces).length ∧
      (firstPiece pieces).length ≤ text.length ∧ (text ≠ [] → 0 < (firstPiece pieces).length) := by
  rw [← h.whole]
  cases pieces with
  | nil => exact ⟨rfl, Nat.le_refl _, fun h => absurd rfl h⟩
  | cons piece pieces =>
      refine ⟨?_, ?_, fun _ => ?_⟩
      · rw [firstPiece, List.headD_cons, List.flatten_cons, List.take_left]
      · rw [firstPiece, List.headD_cons, List.flatten_cons, List.length_append]
        exact Nat.le_add_right _ _
      · exact List.length_pos_iff.mpr (h.nonempty piece List.mem_cons_self)

/-! ## Requests in pieces -/

/-- The beginning of a number is read as the number, or as no number. -/
def SameNumber {α : Type} (number : Scanner Char α) (part token : List Char) : Prop :=
  ∀ v rest, number part = some (v, rest) → ∃ rest', number token = some (v, rest')

/-- What the first {lit}`n` characters of a request leave of its last number, without their last
one, is read as the number, or as no number. -/
def ApiCall.RequestSeen (F : Type) [MixedPrecision F] (call : ApiCall) (n : ℕ) : Prop :=
  match call.uints, call.floats with
  | some us, _ =>
      ∀ t ∈ us.getLast?, SameNumber strtoul (t.take (n + t.length - call.text.length)) t
  | none, some fs =>
      ∀ t ∈ fs.getLast?,
        SameNumber (strtof : Scanner Char F) (t.take (n + t.length - call.text.length)) t
  | none, none => True

/-- An invocation that depends on what is left of the last number is none or the whole one if and
only if the number is read alike or not at all. -/
theorem none_or_whole_iff {α β : Type} {number : Scanner Char α} {part token : List Char} {a : α}
    (htoken : Token number token a) {call : α → β} (hcall : Function.Injective call)
    {seen whole : Option β} (hnone : number part = none → seen = none)
    (hsome : ∀ v rest, number part = some (v, rest) → seen = some (call v))
    (hwhole : whole = some (call a)) :
    (seen = none ∨ seen = whole) ↔ SameNumber number part token := by
  cases hpart : number part with
  | none => exact iff_of_true (.inl (hnone hpart)) fun v rest h => by rw [hpart] at h; cases h
  | some found =>
      rcases found with ⟨v, rest⟩
      rw [hsome v rest hpart, hwhole]
      constructor
      · rintro (hseen | hseen)
        · cases hseen
        · intro v' rest' hpart'
          rw [hpart] at hpart'
          cases hpart'
          rw [hcall (Option.some.inj hseen)]
          exact ⟨[], htoken.reads⟩
      · intro hsame
        rcases hsame v rest hpart with ⟨rest', hread⟩
        rw [htoken.reads] at hread
        cases hread
        exact .inr rfl

/-- The beginning of a request calls the handler with the arguments of the request, or no handler,
if and only if its last number is read alike or not at all. -/
theorem ApiCall.invocation_take_iff {F : Type} [MixedPrecision F] (call : ApiCall) {n : ℕ}
    (hn : 0 < n) (hle : n ≤ call.text.length) :
    (invocation F (call.text.take n) = none ∨
        invocation F (call.text.take n) = invocation F call.text) ↔ call.RequestSeen F n := by
  rcases call.complete with ⟨e, hname, h⟩
  have hpos : 0 < call.text.length := Nat.lt_of_lt_of_le hn hle
  have htake : call.text.take call.text.length = call.text := List.take_length
  unfold ApiCall.RequestSeen
  unfold ApiCall.text at hle hpos htake ⊢
  rw [← hname] at hle hpos htake ⊢
  cases huints : call.uints with
  | some us =>
      rw [huints] at h hle hpos htake
      rcases List.eq_nil_or_concat us with rfl | ⟨front, last, rfl⟩
      · exact absurd rfl h.some_uint
      · rw [List.concat_eq_append] at h hle hpos htake ⊢
        have htoken := (h.numerals last (by simp)).token 0#32
        have hall : last.take ((requestText e.name call.floats (some (front ++ [last]))).length +
            last.length - (requestText e.name call.floats (some (front ++ [last]))).length) =
              last := by
          rw [Nat.add_sub_cancel_left, List.take_length]
        have hseen := h.invocation_take_uints (F := F) rfl hn hle rfl
        have hwhole := (h.invocation_take_uints (F := F) rfl hpos (Nat.le_refl _)
          hall.symm).2 _ _ htoken.reads
        rw [htake] at hwhole
        have hinjective : Function.Injective fun v : BitVec 32 => (e.func,
            ((call.floats.getD []).take 64).map (MixedPrecision.ofText : List Char → F),
            front.map (numberOr strtoul 0#32) ++ [v]) := by
          intro v v' heq
          simpa using heq
        rw [none_or_whole_iff htoken hinjective hseen.1 hseen.2 hwhole]
        simp
  | none =>
      cases hfloats : call.floats with
      | some fs =>
          rw [huints, hfloats] at h hle hpos htake
          rcases List.length_eq_one_iff.mp (h.one_float rfl fs rfl).1 with ⟨last, rfl⟩
          have htoken := (h.literals last (by simp)).isToken (F := F)
          have hall : last.take ((requestText e.name (some [last]) none).length + last.length -
              (requestText e.name (some [last]) none).length) = last := by
            rw [Nat.add_sub_cancel_left, List.take_length]
          have hseen := h.invocation_take_float (F := F) rfl rfl hn hle rfl
          have hwhole := (h.invocation_take_float (F := F) rfl rfl hpos (Nat.le_refl _)
            hall.symm).2 _ _ htoken.reads
          rw [htake] at hwhole
          have hinjective : Function.Injective fun v : F =>
              (e.func, [v], ([] : List (BitVec 32))) := by
            intro v v' heq
            simpa using heq
          rw [none_or_whole_iff htoken hinjective hseen.1 hseen.2 hwhole]
          simp
      | none =>
          rw [huints, hfloats] at h hle hpos htake
          refine iff_of_true ?_ trivial
          by_cases hend : n = (requestText e.name none none).length
          · rw [hend, htake]
            exact .inr rfl
          · exact .inl (h.invocation_take_none rfl rfl hn (by omega))

/-! ## Replies in pieces -/

/-- The names in the table have no blanks. -/
theorem graphic_name : ∀ e ∈ gCmds, ∀ c ∈ e.name, Graphic c := by
  have hchars :
      (gCmds.all fun e => e.name.all fun c => c.isAlphanum || (c = '_' : Bool)) = true := by
    decide
  intro e he c hc
  have halphanum := List.all_eq_true.mp (List.all_eq_true.mp hchars e he) c hc
  rw [Bool.or_eq_true, decide_eq_true_eq] at halphanum
  rcases halphanum with halphanum | rfl
  · exact graphic_of_alphanum halphanum
  · exact ⟨by decide, by decide⟩

/-- What the server answers to the beginning of a request, if anything. -/
theorem ApiCall.reply_eq {F : Type} [MixedPrecision F] (call : ApiCall) {n : ℕ} (hn : 0 < n)
    (hle : n ≤ call.text.length) {stack : BitVec 32} {tr : Trace} {reply : Option (List Char)}
    (hrun : Performs (serve F stack (call.text.take n)) tr reply) :
    reply = none ∨ ∃ (name : List Char) (r : Reply F), reply = some (responseText name r) ∧
      (responseText name r).length < 1024 ∧ (∀ c ∈ name, Graphic c) ∧ PlainReply r ∧
        Distinct r := by
  rcases call.complete with ⟨e, hname, h⟩
  unfold ApiCall.text at hle hrun
  rw [← hname] at hle hrun
  cases hload : (loadContext (cString ((requestText e.name call.floats call.uints).take n).dropLast)
      : Option (LoadedCtx F)) with
  | none => exact .inl ((performs_serve_none hload).mp hrun).2
  | some ctx =>
      have hgraphic : ∀ c ∈ ctx.name, Graphic c := by
        rcases h.cString_take hn hle with ⟨front, line, back, j, hsplit, -, -, hseen, hlines⟩
        rcases requestLines_take hsplit j with ⟨i, rest, hcons, hheads, -⟩
        rw [hcons] at hseen hlines
        have hcommand := commandOf_lines (gCmds_entry e h.mem).2.2.1 hlines hheads
        rw [← hseen] at hcommand
        rcases Option.map_eq_some_iff.mp hload with ⟨cmd, hcmd, rfl⟩
        rw [commandOf, hcmd, Option.map_some] at hcommand
        split_ifs at hcommand
        rw [Option.some_inj] at hcommand
        intro c hc
        dsimp only at hc
        rw [hcommand] at hc
        exact graphic_name e h.mem c (List.mem_of_mem_take hc)
      have hsend : ∀ r : Reply F, reply = sendResponse ctx.name r →
          reply = none ∨ reply = some (responseText ctx.name r) ∧
            (responseText ctx.name r).length < 1024 := by
        rintro r rfl
        unfold sendResponse
        split_ifs with hfits
        · exact .inr ⟨rfl, hfits⟩
        · exact .inl rfl
      rcases performs_serve_some hload hrun with ⟨e', r, -, hhandler, hreply⟩ | ⟨-, -, hreply⟩
      · rcases hsend r hreply with hnone | ⟨hsome, hfits⟩
        · exact .inl hnone
        · exact .inr ⟨ctx.name, r, hsome, hfits, hgraphic, reply_plain stack ctx.toCmdCtx hhandler,
            reply_distinct stack ctx.toCmdCtx hhandler⟩
      · rcases hsend _ hreply with hnone | ⟨hsome, hfits⟩
        · exact .inl hnone
        · exact .inr ⟨ctx.name, _, hsome, hfits, hgraphic, plainReply_nil 0, distinct_nil 0⟩

/-! ## Exchanges -/

/-- An exchange in pieces.  The server calls the handler of the request with the arguments of the
request, or no handler, and the client has the dictionary of the whole reply, if and only if the
first piece of the request keeps its last number or leaves no number of it, and the first piece of
the reply keeps its last value. -/
theorem segmentation_iff {F : Type} [MixedPrecision F] {D : Type} [PyFloat D] (call : ApiCall)
    (hlength : call.text.length ≤ 1024) {sent replied : List (List Char)}
    (hsent : Segments call.text sent) {stack : BitVec 32} {tr : Trace}
    {reply : Option (List Char)}
    (hrun : Performs (serve F stack (readAtOnce (firstPiece sent))) tr reply)
    (hreplied : Segments (reply.getD []) replied) :
    ((invocation F (readAtOnce (firstPiece sent)) = none ∨
          invocation F (readAtOnce (firstPiece sent)) = invocation F call.text) ∧
        (executeCmd (recvAtOnce (firstPiece replied)) : Response D) =
          executeCmd (reply.getD [])) ↔
      call.RequestSeen F (firstPiece sent).length ∧
        ReplySeen D (reply.getD []) (firstPiece replied).length := by
  rcases hsent.firstPiece_eq with ⟨hfirst, hle, hpos⟩
  have hpos := hpos (by simp [ApiCall.text, requestText, requestLines])
  rw [readAtOnce, List.take_of_length_le (by omega)] at hrun ⊢
  rw [hfirst] at hrun
  have hrequest := call.invocation_take_iff (F := F) hpos hle
  rw [← hfirst] at hrequest
  rw [hrequest]
  refine and_congr_right fun _ => ?_
  rcases hreplied.firstPiece_eq with ⟨hfirst', hle', -⟩
  rcases call.reply_eq hpos hle hrun with rfl | ⟨name, r, rfl, hfits, hname, hplain, hdistinct⟩
  · -- no reply
    rw [Option.getD_none] at hfirst' ⊢
    rw [hfirst', List.take_nil]
    exact iff_of_true rfl ⟨Nat.zero_le _, .inl rfl⟩
  · rw [Option.getD_some] at hfirst' hle' ⊢
    have hshort : recvAtOnce (firstPiece replied) = firstPiece replied :=
      List.take_of_length_le (by omega)
    rw [hshort]
    have hreply := executeCmd_take_responseText (D := D) hname hplain hdistinct hle'
    rwa [← hfirst'] at hreply

/-- A rotation by one radian. -/
def oneRadian : FloatText where
  text := "1.0".toList
  literal := by
    change FloatLiteral ([] ++ (['1'] ++ (['.', '0'] ++ [])))
    exact floatLiteral_decimal (.inl rfl) ⟨by simp, by simp⟩ (.inr ⟨['0'], rfl, by simp⟩) (.inl rfl)

/-- The last character of a text, if there is one, as a piece of its own. -/
def lastApart (text : List Char) : List (List Char) :=
  [text.dropLast, text.drop (text.length - 1)].filter (· ≠ [])

theorem segments_lastApart (text : List Char) : Segments text (lastApart text) := by
  refine ⟨fun piece hpiece => by simpa using (List.mem_filter.mp hpiece).2, ?_⟩
  rw [lastApart, List.flatten_filter_ne_nil, List.flatten_cons, List.flatten_singleton,
    List.dropLast_eq_take, List.take_append_drop]

/-- At most that character is missing from the first piece. -/
theorem length_firstPiece_lastApart (text : List Char) :
    text.length ≤ (firstPiece (lastApart text)).length + 1 := by
  by_cases hnil : text.dropLast = []
  · have hshort := congrArg List.length hnil
    rw [List.length_dropLast, List.length_nil] at hshort
    omega
  · have hfirst : firstPiece (lastApart text) = text.dropLast := by
      simp [firstPiece, lastApart, hnil]
    rw [hfirst, List.length_dropLast]
    omega

/-- If the newlines at the end of a request for a rotation and at the end of its reply are pieces of
their own, the server reads the angle before the newline and the client has the whole reply. -/
theorem segmentation_iff_lastApart :
    ∃ (tr : Trace) (reply : Option (List Char)),
      Performs (serve ℚ 0#32 (readAtOnce
        (firstPiece (lastApart (ApiCall.setRotation oneRadian).text)))) tr reply ∧
      (firstPiece (lastApart (ApiCall.setRotation oneRadian).text)).length + 1 =
        (ApiCall.setRotation oneRadian).text.length ∧
      ((invocation ℚ (readAtOnce
            (firstPiece (lastApart (ApiCall.setRotation oneRadian).text))) = none ∨
          invocation ℚ (readAtOnce (firstPiece (lastApart (ApiCall.setRotation oneRadian).text))) =
            invocation ℚ (ApiCall.setRotation oneRadian).text) ∧
        (executeCmd (recvAtOnce (firstPiece (lastApart (reply.getD [])))) : Response ℚ) =
          executeCmd (reply.getD [])) := by
  rcases exists_performs (fun c : Call => (default : c.Response))
    (serve ℚ 0#32 (readAtOnce (firstPiece (lastApart (ApiCall.setRotation oneRadian).text)))) with
    ⟨tr, reply, hrun⟩
  have hreply := length_firstPiece_lastApart (reply.getD [])
  refine ⟨tr, reply, hrun, by decide, (segmentation_iff (.setRotation oneRadian) (by decide)
    (segments_lastApart _) hrun (segments_lastApart _)).mpr ⟨?_, ?_, ?_⟩⟩
  · -- what is missing of the number is its last zero
    have hpart : SameNumber (strtof : Scanner Char ℚ) ['1', '.'] ['1', '.', '0'] := by
      have hvalue : (strtof ['1', '.'] : Option (ℚ × List Char)) = some (1, []) ∧
          (strtof ['1', '.', '0'] : Option (ℚ × List Char)) = some (1, []) := by
        decide +kernel
      intro v rest hread
      rw [hvalue.1] at hread
      cases hread
      exact ⟨[], hvalue.2⟩
    intro t ht
    cases ht
    exact hpart
  · omega
  · exact .inl (List.take_of_length_le (by omega))

/-- Where the newline at the end of the request is a piece of its own, the server sets the diodes
to 1 and not to 12. -/
theorem setLed_in_pieces :
    Segments (ApiCall.setLed 12).text [(ApiCall.setLed 12).text.take 16, ['\n']] ∧
      invocation ℚ (readAtOnce (firstPiece [(ApiCall.setLed 12).text.take 16, ['\n']])) =
        some (.setLed, [], [1#32]) ∧
      ¬(invocation ℚ (readAtOnce (firstPiece [(ApiCall.setLed 12).text.take 16, ['\n']])) = none ∨
        invocation ℚ (readAtOnce (firstPiece [(ApiCall.setLed 12).text.take 16, ['\n']])) =
          invocation ℚ (ApiCall.setLed 12).text) := by
  refine ⟨⟨by decide, by decide⟩, by decide, ?_⟩
  decide

end Protocol
end PoundDreverHall
