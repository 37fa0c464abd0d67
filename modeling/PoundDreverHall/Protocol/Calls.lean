import PoundDreverHall.Protocol.Segments
import PoundDreverHall.Requests.ReplyShape
import PoundDreverHall.Requests.Session

/-!
# Protocol - sessions of the API

A call of the API sends a text, and the server loads, executes and answers it; the function then
fetches the log of the call, if the call has one, and copies values of the answer into its result.
With texts that arrive at once, nothing of a call is lost on the way.  The server has the arguments
of the call, the core has the settings that they ask for, and the function raises an error for a
code other than 0; otherwise it has all of its values, unless the log cannot be fetched.

Main results:

- Definition {lit}`ApiCall.ctx`: the arguments of a call as the server has them.
- Definition {lit}`ApiCall.returns`: a function of the API, from what it receives.
- Theorem {lit}`ApiCall.loadContext`: the server has the arguments of a call.
- Theorem {lit}`session_calls`: what the calls of a session return, and the settings after them.
-/

namespace PoundDreverHall
namespace Protocol

open Client Clocked Device Device.Program PdhCore PyString Requests Scan
open Server hiding isSpace

/-! ## Arguments -/

/-- What `strtoul` makes of the text of an integer. -/
def unsignedOf (z : ℤ) : BitVec 32 :=
  if 2 ^ 32 ≤ z.natAbs then BitVec.allOnes 32 else BitVec.ofInt 32 z

namespace ApiCall

/-- The handler of a call. -/
def func : ApiCall → Handler
  | resetFpga => .resetFpga
  | setLed .. => .setLed
  | getAdc => .getAdc
  | setDac .. => .setDac
  | checkSigned .. => .checkSigned
  | setRotation .. => .setRot
  | setNco .. => .setNco
  | setPid .. => .setPid
  | setFir .. => .setFir
  | configIo .. => .configIo
  | configDemod .. => .configDemod
  | getFrame .. => .getFrame
  | sweepRamp .. => .sweepRamp

/-- The arguments of a call as the server has them. -/
def ctx (F : Type) [MixedPrecision F] (call : ApiCall) : CmdCtx F where
  floatArgs := fun i =>
    (((call.floats.getD []).take 64).map MixedPrecision.ofText).getD i (SinglePrecision.lit 0)
  uintArgs := fun i => ((call.intArgs.getD []).map unsignedOf).getD i 0#32
  numFloats := ((call.floats.getD []).take 64).length
  numFloats_le := List.length_take_le 64 _

end ApiCall

/-- An integer is read with its value modulo {lit}`2^32`, or as the largest word. -/
theorem token_formatInt (z : ℤ) : Token strtoul (formatInt z) (unsignedOf z) := by
  have hdigits := digits_toDigits z.natAbs
  unfold formatInt
  split_ifs with hneg
  · have hvalue : unsignedLongValue ['-'] (Nat.toDigits 10 z.natAbs) = unsignedOf z := by
      rw [unsignedLongValue, Nat.ofDigitChars_ten_toDigits, unsignedOf]
      refine if_congr Iff.rfl rfl ?_
      rw [if_pos rfl, ← BitVec.ofInt_natCast, ← BitVec.ofInt_neg]
      exact congrArg (BitVec.ofInt 32) (by omega)
    rw [← hvalue]
    exact token_integer (.inr (.inl rfl)) hdigits
  · have hvalue : unsignedLongValue [] (Nat.toDigits 10 z.natAbs) = unsignedOf z := by
      rw [unsignedLongValue, Nat.ofDigitChars_ten_toDigits, unsignedOf]
      refine if_congr Iff.rfl rfl ?_
      rw [if_neg (by decide), ← BitVec.ofInt_natCast]
      exact congrArg (BitVec.ofInt 32) (by omega)
    rw [← hvalue]
    exact token_integer (.inl rfl) hdigits

theorem numberOr_formatInt (z : ℤ) : numberOr strtoul 0#32 (formatInt z) = unsignedOf z := by
  have hread := (token_formatInt z).read [] (.inl rfl)
  rw [List.append_nil] at hread
  rw [numberOr, hread]
  rfl

/-! ## Requests -/

section Load

variable {F : Type} [MixedPrecision F]

omit [MixedPrecision F] in
theorem ApiCall.length_name_le (call : ApiCall) : call.name.length ≤ 255 := by
  cases call <;> simp [ApiCall.name]

/-- The table has the command of a call, with its handler, and the call has enough arguments. -/
theorem ApiCall.exists_handler (call : ApiCall) :
    ∃ e ∈ gCmds, e.name = call.name ∧ e.func = call.func ∧
      e.requiredFloats ≤ ((call.floats.getD []).take 64).length ∧ e.requiredInts = 0 ∧
        e.requiredUints ≤ (call.intArgs.getD []).length := by
  cases call <;> simp [gCmds, ApiCall.name, ApiCall.func, ApiCall.floats, ApiCall.floatArgs,
    ApiCall.intArgs]

omit [MixedPrecision F] in
theorem cmdCtx_ext {a b : CmdCtx F} (hfloats : a.floatArgs = b.floatArgs)
    (huints : a.uintArgs = b.uintArgs) (hcount : a.numFloats = b.numFloats) : a = b := by
  cases a
  cases b
  cases hfloats
  cases huints
  cases hcount
  rfl

/-- The server has the arguments of a call, and they are enough for the handler. -/
theorem ApiCall.loadContext (call : ApiCall) (hfits : call.text.length ≤ 1024) :
    ∃ loaded : LoadedCtx F,
      Server.loadContext (cString (readAtOnce call.text).dropLast) = some loaded ∧
        loaded.toCmdCtx = call.ctx F ∧ loaded.name = call.name ∧
          ∃ e, Dispatched loaded e ∧ e.func = call.func := by
  rcases call.complete with ⟨e, hname, h⟩
  have hplain : PlainRequest e.name call.floats call.uints := h.plain
  have hfloat : ∀ t ∈ call.floats.getD [], Token strtof t (MixedPrecision.ofText t : F) :=
    fun t ht => (h.literals t ht).isToken
  have hfloats : argsOf parseFloats
      (['\n'].intercalate (requestLines e.name call.floats call.uints)) ['F', ':'] =
        ((call.floats.getD []).take 64).map (MixedPrecision.ofText : List Char → F) := by
    rw [argsOf, hplain.findKey_floats]
    cases hcall : call.floats with
    | none => rfl
    | some tokens =>
        rw [hcall] at hfloat
        apply parseArgs_intercalate (linesAfter_eq _) hfloat
        intro _ htail
        cases huints : call.uints with
        | none => exact absurd (by rw [huints]; rfl) htail
        | some us => exact strtof_emptyLine _
  have huints : argsOf parseUints (['\n'].intercalate (requestLines e.name call.floats call.uints))
      ['U', ':'] = (call.intArgs.getD []).map unsignedOf := by
    rw [argsOf, hplain.findKey_uints]
    unfold ApiCall.uints
    cases hargs : call.intArgs with
    | none => rfl
    | some zs =>
        have htokens : ∀ t ∈ zs.map formatInt, Token strtoul t (numberOr strtoul 0#32 t) := by
          intro t ht
          rcases List.mem_map.mp ht with ⟨z, -, rfl⟩
          rw [numberOr_formatInt]
          exact token_formatInt z
        have hfew : (zs.map formatInt).length ≤ 10 := by
          have hcount := h.all_uints
          rw [ApiCall.uints, hargs] at hcount
          exact hcount ▸ (gCmds_entry e h.mem).2.2.2.2.2
        have hread := parseArgs_intercalate (.inl rfl) htokens (fun _ h => absurd rfl h) 10
        rw [List.append_nil, List.take_of_length_le hfew, List.map_map] at hread
        exact hread.trans (List.map_congr_left fun z _ => numberOr_formatInt z)
  rcases loadContext_intercalate hplain (gCmds_entry e h.mem).2.2.1 hfloats huints with
    ⟨loaded, hload, hloaded, -, hints, -⟩
  have hctx : loaded.toCmdCtx = call.ctx F ∧ loaded.numUints = (call.intArgs.getD []).length := by
    rcases Option.map_eq_some_iff.mp hload with ⟨cmd, -, rfl⟩
    refine ⟨cmdCtx_ext ?_ ?_ ?_, ?_⟩
    · simp only [hfloats, ApiCall.ctx]
    · simp only [huints, ApiCall.ctx]
    · simp only [hfloats, ApiCall.ctx, List.length_map]
    · simp only [huints, List.length_map]
  rcases call.exists_handler with ⟨e', hmem, hname', hfunc, henough, hnoInts, huints'⟩
  have htext : cString (readAtOnce call.text).dropLast =
      ['\n'].intercalate (requestLines e.name call.floats call.uints) := by
    rw [readAtOnce, List.take_of_length_le hfits, ApiCall.text, ← hname, hplain.cString_dropLast]
  refine ⟨loaded, htext ▸ hload, hctx.1, hloaded.trans hname, e', ?_, hfunc⟩
  refine dispatched_iff.mpr ⟨hmem, hloaded.trans (hname.trans hname'.symm), ?_, ?_, ?_⟩
  · rw [hctx.1]
    exact henough
  · rw [hnoInts]
    exact Nat.zero_le _
  · rw [hctx.2]
    exact huints'

end Load

/-! ## Functions of the API -/

/-- The names of the values that a function of the API copies into its result. -/
def ApiCall.keys : ApiCall → List String
  | resetFpga => ["RST_RAW_CB"]
  | setLed .. => ["LED_CODE_CB", "CMD_CB"]
  | getAdc => ["IN1", "IN2", "IN1_V", "IN2_V"]
  | setDac .. => ["DAC1_CODE_CB", "DAC2_CODE_CB"]
  | checkSigned .. => ["REG_SEL_CB", "REG_VALUE_CB"]
  | setRotation .. => ["COS_CB", "SIN_CB", "I_FEED_CB", "Q_FEED_CB"]
  | setNco .. =>
      ["STRIDE_CB", "SHIFT_CB", "SUB_CB", "INV_CB", "EN_CB", "REGISTERED_FREQ",
        "REGISTERED_FREQ_ERROR", "REGISTERED_PHASE_SHIFT", "REGISTERED_SHIFT_ERROR"]
  | setPid .. =>
      ["KP_CB", "KD_CB", "KI_CB", "DEC_CB", "SP_CB", "ALPHA_CB", "SAT_CB", "EN_CB", "GAIN_CB",
        "BIAS_CB", "EGAIN_CB"]
  | setFir .. => ["INPUT_SEL_CB", "MEM_WEN_EN_CB", "MEM_WEN_DIS_CB", "CHAIN_WEN_CB"]
  | configIo .. => ["DAC1_DAT_SEL_CB", "DAC2_DAT_SEL_CB", "PID_DAT_SEL_CB"]
  | configDemod .. => ["REF_SEL_CB", "IN_SEL_CB", "LPF_ALPHA_CB"]
  | getFrame .. => ["DMA_ENGAGED_CB", "DECIMATION_CODE_CB", "FRAME_CODE_CB"]
  | sweepRamp .. => ["NUM_POINTS_CB"]

/-- The file of the server that a function of the API fetches after a reply with status 0. -/
def ApiCall.logFile : ApiCall → Option String
  | getFrame .. => some "dma_log.csv"
  | sweepRamp .. => some "sweep_log.csv"
  | _ => none

/-- The result of a function of the API: the status, the values that it copies, and the array that
it has fetched, if it has fetched one; where the dictionary has no value, the function takes a
default. -/
structure ApiResult (D A : Type) where
  status : PyValue D
  values : List (Option (PyValue D))
  data : Option A

/-- What a function of the API raises: the error of its wrapper, or an error of the libraries that
fetch a file and read it. -/
inductive ApiError where
  | status (text : List Char)
  | library
deriving DecidableEq

section Functions

variable {F : Type} [MixedPrecision F] {D : Type} [PyFloat D] {A : Type}

/-- `_ssh_fetch_csv` and `np.loadtxt`, on the log of a call.  The array that the libraries make of a
file of the server is {lit}`load`; it is {lit}`none` if one of them raises an error. -/
def ApiCall.fetchLog (call : ApiCall) (load : String → Option A) : Except ApiError (Option A) :=
  match call.logFile with
  | none => .ok none
  | some path =>
      match load path with
      | some data => .ok (some data)
      | none => .error .library

/-- The function {lit}`name` of the API for a call, when `recv` has returned {lit}`raw`. -/
def ApiCall.returns (call : ApiCall) (load : String → Option A) (name raw : List Char) :
    Except ApiError (ApiResult D A) := do
  let r := executeCmd raw
  let status := statusOf r
  let data ← if status.isZero then call.fetchLog load else .ok none
  let result : ApiResult D A := ⟨status, call.keys.map fun key => r key.toList, data⟩
  (apiCmd name (fun result => some result.status) result).mapError .status

/-- What the client makes of the value that a reply reports under a name. -/
def reported (r : Reply F) (key : String) : Option (PyValue D) :=
  (r.outputItems.find? fun o => o.name = key).map fun o => coerce o.data.format

/-- What a function of the API returns for a reply with the code {lit}`code`: the values that the
handler has reported and the log of the call, or an error with the code. -/
def ApiCall.outcome (call : ApiCall) (load : String → Option A) (name : List Char) (r : Reply F)
    (code : ℕ) : Except ApiError (ApiResult D A) :=
  if code = 0 then
    (call.fetchLog load).map fun data => ⟨.int 0, call.keys.map (reported r), data⟩
  else .error (.status (name ++ ": server returned status=".toList ++ (toString (code : ℤ)).toList))

/-- The handler of a call reports the values that the function looks up. -/
theorem keys_subset (call : ApiCall) : ∀ key ∈ call.keys, key ∈ valueNames call.func := by
  cases call <;> simp [ApiCall.keys, ApiCall.func, valueNames]

/-- The values of a reply are found under their names. -/
theorem executeCmd_reported (name : List Char) {r : Reply F} (h : ReadableReply r) {key : String}
    (hkey : key ∈ outputNames r) :
    (executeCmd (responseText name r) : Response D) key.toList = reported r key := by
  rcases executeCmd_responseText (D := D) name h.readable with ⟨start, hdict⟩
  rcases List.mem_map.mp hkey with ⟨o, ho, hname⟩
  cases hfind : r.outputItems.find? fun o => o.name = key with
  | none => exact absurd hname (by simpa using List.find?_eq_none.mp hfind o ho)
  | some o' =>
      have ho' := List.mem_of_find?_eq_some hfind
      have hname' : o'.name = key := by simpa using List.find?_some hfind
      have hline : (o'.name.toList, o'.data.format) ∈ replyLines r :=
        List.mem_cons_of_mem _ (List.mem_map.mpr ⟨o', ho', rfl⟩)
      rw [reported, hfind, hdict, ← hname', assign_of_mem start h.nodup_keys hline, Option.map_some]

/-- A value that a reply has is reported. -/
theorem isSome_reported {r : Reply F} {key : String} (hkey : key ∈ outputNames r) :
    (reported r key : Option (PyValue D)).isSome := by
  rcases List.mem_map.mp hkey with ⟨o, ho, hname⟩
  rw [reported, Option.isSome_map, List.find?_isSome]
  exact ⟨o, ho, decide_eq_true hname⟩

/-- What a function returns for a reply that has its values. -/
theorem ApiCall.returns_responseText (call : ApiCall) (load : String → Option A)
    (fname name : List Char) {r : Reply F} (h : ReadableReply r)
    (hkeys : r.returnCode = 0 → ∀ key ∈ call.keys, key ∈ outputNames r) :
    (call.returns load fname (responseText name r) : Except ApiError (ApiResult D A)) =
      call.outcome load fname r r.returnCode := by
  have hstatus : statusOf (executeCmd (responseText name r) : Response D) = .int r.returnCode := by
    rw [statusOf, status_of_reply name h.readable h.not_status, Option.getD_some]
  unfold ApiCall.returns ApiCall.outcome
  simp only [apiCmd, hstatus, PyValue.isZero, PyValue.toText, decide_eq_true_eq,
    Int.natCast_eq_zero]
  by_cases hzero : r.returnCode = 0
  · have hvalues : (call.keys.map fun key =>
        (executeCmd (responseText name r) : Response D) key.toList) = call.keys.map (reported r) :=
      List.map_congr_left fun key hkey => executeCmd_reported name h (hkeys hzero key hkey)
    rw [if_pos hzero, if_pos hzero, hvalues, hzero]
    cases call.fetchLog load <;> rfl
  · simp only [if_neg hzero]
    rfl

end Functions

/-! ## Sessions -/

/-- A call whose text arrived at once, with what the server did for it. -/
structure ServedCall (F : Type) [MixedPrecision F] where
  call : ApiCall
  fits : call.text.length ≤ 1024
  stack : BitVec 32
  trace : Trace
  reply : Option (List Char)
  served : Performs (serve F stack (readAtOnce call.text)) trace reply

namespace ServedCall

variable {F : Type} [MixedPrecision F] {D : Type} [PyFloat D] {A : Type} (q : ServedCall F)

/-- The text that was served. -/
def request : Request F :=
  ⟨q.stack, readAtOnce q.call.text, q.trace, q.reply, q.served⟩

/-- What the call does to the settings. -/
def settings (s : Settings) : Settings :=
  s.apply q.stack (q.call.ctx F) (fileOpened "sweep_log.csv" q.trace) q.call.func

/-- The code that the call is answered with. -/
def code : ℕ :=
  answerCode q.stack (q.call.ctx F) (fileOpened "sweep_log.csv" q.trace)
    (fileOpened "dma_log.csv" q.trace) q.call.func

theorem request_settings (s : Settings) : q.request.settings s = q.settings s := by
  rcases q.call.loadContext (F := F) q.fits with ⟨loaded, hload, hctx, -, e, he, hfunc⟩
  simp only [Request.settings, Settings.serve, request, hload, he.1, he.2, hctx, hfunc, if_true]
  rfl

/-- On a faithful board a call has a reply.  The handler has reported all the values that the
function of the API looks up, unless the code of the call is not 0, and the function returns them
with the log of the call, or raises an error with the code. -/
theorem answered {b b' : Board} (hfollows : Follows board b q.trace b')
    (hchars : ∀ f : F, (MixedPrecision.toText f).length ≤ 47) :
    ∃ (r : Reply F) (text : List Char),
      Performs (q.call.func.run q.stack (q.call.ctx F)) q.trace r ∧ q.reply = some text ∧
        (q.code = 0 → ∀ key ∈ q.call.keys, (reported r key : Option (PyValue D)).isSome) ∧
          ∀ load fname, (q.call.returns load fname (recvAtOnce text) :
            Except ApiError (ApiResult D A)) = q.call.outcome load fname r q.code := by
  rcases q.call.loadContext (F := F) q.fits with ⟨loaded, hload, hctx, hname, e, he, hfunc⟩
  rcases performs_serve_some hload q.served with ⟨e', r, he', hhandler, hreply⟩ | ⟨hnone, -, -⟩
  · rw [he'.unique he, hfunc, hctx] at hhandler
    have hcode : r.returnCode = q.code := handler_code _ hhandler hfollows
    have hlimit : r.returnCode < 100 := by
      rw [hcode]
      exact answerCode_lt _ _ _ _ _
    have hshape := handler_shaped q.call.func q.trace r hhandler
    have hlength : loaded.name.length ≤ 255 := by
      rw [hname]
      exact q.call.length_name_le
    have hplain := readable_of_plain (reply_plain q.stack _ hhandler)
    have hreadable : ReadableReply r := ⟨hplain.1, reply_distinct q.stack _ hhandler, hplain.2⟩
    have hkeys : r.returnCode = 0 → ∀ key ∈ q.call.keys, key ∈ outputNames r := by
      intro hzero key hkey
      rcases hshape with ⟨-, hfailed⟩ | hnames
      · exact absurd hzero hfailed
      · rw [hnames]
        exact keys_subset q.call key hkey
    have hfits := responseText_fits hchars hlength hshape hlimit
    rw [sendResponse, if_pos hfits] at hreply
    refine ⟨r, _, hhandler, hreply, fun hzero key hkey => ?_, fun load fname => ?_⟩
    · exact isSome_reported (hkeys (hcode.trans hzero) key hkey)
    · have hrecv : recvAtOnce (responseText loaded.name r) = responseText loaded.name r :=
        List.take_of_length_le (by omega)
      rw [hrecv, q.call.returns_responseText load fname loaded.name hreadable hkeys, hcode]
  · exact absurd he (hnone e)

end ServedCall

/-- A session of calls of the API, from reset.  Every call has a reply.  If its code is 0, the
handler has reported every value that the function looks up, and the function returns these values
with the log that it fetches, or raises the error of the fetch.  Otherwise it raises an error with
the code.  The settings after the session are those of the calls. -/
theorem session_calls {F : Type} [MixedPrecision F] {D : Type} [PyFloat D] {A : Type}
    (rom : Nco.Rom) (hchars : ∀ f : F, (MixedPrecision.toText f).length ≤ 47)
    (calls : List (ServedCall F)) {g : Gpio}
    (hfollows : Follows (slowGpio rom) ⟨heldInReset rom, 0x80000000#32⟩
      (calls.flatMap ServedCall.trace) g) {n : ℕ} (hn : 8 ≤ n) {s : State}
    (hpasses : Passes rom n g s) :
    settingsOf s.config = calls.foldl (fun x q => q.settings x) Settings.reset ∧
      ∀ q ∈ calls, ∃ (r : Reply F) (text : List Char),
        Performs (q.call.func.run q.stack (q.call.ctx F)) q.trace r ∧ q.reply = some text ∧
          (q.code = 0 → ∀ key ∈ q.call.keys, (reported r key : Option (PyValue D)).isSome) ∧
            ∀ load fname, (q.call.returns load fname (recvAtOnce text) :
              Except ApiError (ApiResult D A)) = q.call.outcome load fname r q.code := by
  rcases slowGpio_refines_reset hfollows with ⟨b, hboard, hrepresents⟩
  constructor
  · have htraces : calls.flatMap ServedCall.trace =
        (calls.map ServedCall.request).flatMap Request.trace := by
      rw [List.flatMap_map]
      rfl
    rw [htraces] at hboard
    rw [config_of_represents hrepresents hn hpasses, requests_settings _ hboard, List.foldl_map]
    simp only [ServedCall.request_settings]
    rfl
  · intro q hq
    rcases List.append_of_mem hq with ⟨before, after, rfl⟩
    rw [List.flatMap_append, List.flatMap_cons] at hboard
    rcases follows_append.mp hboard with ⟨b₁, -, hrest⟩
    rcases follows_append.mp hrest with ⟨b₂, hserved, -⟩
    exact q.answered hserved hchars

/-! ### A session of three calls -/

/-- What {lit}`%f` prints of a {lit}`float`, of which none is larger. -/
def printFloat (x : ℚ) : List Char :=
  if (roundHalfEven (x * 1000000)).natAbs < 10 ^ 45 then sixDecimals x else ['i', 'n', 'f']

theorem printFloat_chars (x : ℚ) : ∀ c ∈ printFloat x, c.isAlphanum ∨ c = '-' ∨ c = '.' := by
  unfold printFloat
  split_ifs
  · exact sixDecimals_chars x
  · intro c hc
    left
    simp only [List.mem_cons, List.not_mem_nil, or_false] at hc
    rcases hc with rfl | rfl | rfl <;> rfl

theorem length_printFloat_le (x : ℚ) : (printFloat x).length ≤ 47 := by
  unfold printFloat
  split_ifs with hsmall
  · have hwhole : (Nat.toDigits 10 ((roundHalfEven (x * 1000000)).natAbs / 1000000)).length ≤ 39 :=
      length_toDigits_le (by omega) (by omega)
    have hdecimals :
        (Nat.toDigits 10 ((roundHalfEven (x * 1000000)).natAbs % 1000000)).length ≤ 6 :=
      length_toDigits_le (by omega) (by omega)
    have hsign : (if x < 0 then ['-'] else []).length ≤ 1 := by split_ifs <;> simp
    simp only [sixDecimals, List.length_append, List.length_replicate, List.length_singleton]
    omega
  · decide

/-- Rational numbers that are printed as {lit}`float` values. -/
def Printed : Type := ℚ

instance : MixedPrecision Printed :=
  { (inferInstance : MixedPrecision ℚ) with
    toText := printFloat
    toText_chars := printFloat_chars }

/-- Any calls with texts of the size can be served one after the other. -/
theorem exists_calls {F : Type} [MixedPrecision F] (rom : Nco.Rom) (stack : BitVec 32)
    (calls : List ApiCall) (hfits : ∀ call ∈ calls, call.text.length ≤ 1024) (g : Gpio) :
    ∃ (served : List (ServedCall F)) (g' : Gpio),
      served.map (fun q => (q.stack, q.call)) = calls.map (fun call => (stack, call)) ∧
        Follows (slowGpio rom) g (served.flatMap ServedCall.trace) g' := by
  induction calls generalizing g with
  | nil => exact ⟨[], g, rfl, .nil g⟩
  | cons call calls ih =>
      rcases exists_run (exists_slowGpio rom) (Server.serve F stack (readAtOnce call.text)) g with
        ⟨tr, reply, g₁, hrun, hfirst⟩
      rcases ih (fun c hc => hfits c (List.mem_cons_of_mem _ hc)) g₁ with
        ⟨served, g', hsame, hrest⟩
      refine ⟨⟨call, hfits call List.mem_cons_self, stack, tr, reply, hrun⟩ :: served, g', ?_, ?_⟩
      · rw [List.map_cons, List.map_cons, hsame]
      · rw [List.flatMap_cons]
        exact follows_append.mpr ⟨g₁, hfirst, hrest⟩

/-- Calls that light LEDs, that ask for more LEDs than there are, and that route the controller to
the first converter. -/
def threeCalls : List ApiCall :=
  [.setLed 170, .setLed 300, .configIo 1 0 2]

/-- The second of the calls raises an error, and the others return their values. -/
theorem session_calls_threeCalls :
    ∃ (q₁ q₂ q₃ : ServedCall Printed) (g : Gpio) (s : State),
      [q₁, q₂, q₃].map (fun q => (q.stack, q.call)) = threeCalls.map (fun call => (0#32, call)) ∧
      Follows (slowGpio fun _ => 0#16) ⟨heldInReset fun _ => 0#16, 0x80000000#32⟩
        ([q₁, q₂, q₃].flatMap ServedCall.trace) g ∧
      Passes (fun _ => 0#16) 8 g s ∧
      settingsOf s.config = { Settings.reset with
        led := 170#8, dac1DatSel := 1#3, dac2DatSel := 0#3, pidDatSel := 2#3 } ∧
      (∃ (r : Reply Printed) (text : List Char), q₁.reply = some text ∧ ∀ load fname,
        (q₁.call.returns load fname (recvAtOnce text) : Except ApiError (ApiResult ℚ ℚ)) =
          .ok ⟨.int 0, ["LED_CODE_CB", "CMD_CB"].map (reported r), none⟩) ∧
      (∃ text, q₂.reply = some text ∧ ∀ load fname,
        (q₂.call.returns load fname (recvAtOnce text) : Except ApiError (ApiResult ℚ ℚ)) =
          .error (.status (fname ++ ": server returned status=1".toList))) ∧
      ∃ (r : Reply Printed) (text : List Char), q₃.reply = some text ∧ ∀ load fname,
        (q₃.call.returns load fname (recvAtOnce text) : Except ApiError (ApiResult ℚ ℚ)) =
          .ok ⟨.int 0, ["DAC1_DAT_SEL_CB", "DAC2_DAT_SEL_CB", "PID_DAT_SEL_CB"].map (reported r),
            none⟩ := by
  rcases exists_calls (F := Printed) (fun _ => 0#16) 0#32 threeCalls (by decide)
    ⟨heldInReset fun _ => 0#16, 0x80000000#32⟩ with ⟨served, g, hsame, hfollows⟩
  have hpasses : Passes (fun _ => 0#16) 8 g
      (run (step fun _ => 0#16) g.core (fun _ => ⟨g.bus, 0#14, 0#14, true, true⟩) 8) :=
    ⟨_, fun _ _ => rfl, rfl⟩
  rcases session_calls (D := ℚ) (A := ℚ) _ length_printFloat_le served hfollows le_rfl
    hpasses with ⟨hsettings, hcalls⟩
  rcases exists_of_map_eq_three hsame with ⟨q₁, q₂, q₃, rfl, h₁, h₂, h₃⟩
  simp only [Prod.mk.injEq] at h₁ h₂ h₃
  have hstore : ∀ ramp₁ ramp₂ ramp₃,
      ((Settings.reset.apply 0#32 ((ApiCall.setLed 170).ctx Printed) ramp₁ .setLed).apply 0#32
        ((ApiCall.setLed 300).ctx Printed) ramp₂ .setLed).apply 0#32
          ((ApiCall.configIo 1 0 2).ctx Printed) ramp₃ .configIo =
        { Settings.reset with
          led := 170#8, dac1DatSel := 1#3, dac2DatSel := 0#3, pidDatSel := 2#3 } := by
    decide +kernel
  have hcodes : ∀ ramp frame,
      answerCode 0#32 ((ApiCall.setLed 170).ctx Printed) ramp frame .setLed = 0 ∧
      answerCode 0#32 ((ApiCall.setLed 300).ctx Printed) ramp frame .setLed = 1 ∧
      answerCode 0#32 ((ApiCall.configIo 1 0 2).ctx Printed) ramp frame .configIo = 0 := by
    decide +kernel
  have hcode : ∀ (q : ServedCall Printed) (call : ApiCall), q.stack = 0#32 ∧ q.call = call →
      q.code = answerCode 0#32 (call.ctx Printed) (fileOpened "sweep_log.csv" q.trace)
        (fileOpened "dma_log.csv" q.trace) call.func := by
    rintro q call ⟨hstack, rfl⟩
    rw [ServedCall.code, hstack]
  refine ⟨q₁, q₂, q₃, g, _, hsame, hfollows, hpasses, hsettings.trans ?_, ?_, ?_, ?_⟩
  · simp only [List.foldl_cons, List.foldl_nil, ServedCall.settings, h₁, h₂, h₃]
    exact hstore _ _ _
  · rcases hcalls q₁ (by simp) with ⟨r, text, -, hreply, -, hreturns⟩
    refine ⟨r, text, hreply, fun load fname => ?_⟩
    rw [hreturns, (hcode q₁ _ h₁).trans (hcodes _ _).1, h₁.2]
    rfl
  · rcases hcalls q₂ (by simp) with ⟨r, text, -, hreply, -, hreturns⟩
    refine ⟨text, hreply, fun load fname => ?_⟩
    rw [hreturns, (hcode q₂ _ h₂).trans (hcodes _ _).2.1]
    exact congrArg (fun tail => Except.error (ApiError.status tail))
      ((List.append_assoc _ _ _).trans (congrArg (fname ++ ·) (by decide +kernel)))
  · rcases hcalls q₃ (by simp) with ⟨r, text, -, hreply, -, hreturns⟩
    refine ⟨r, text, hreply, fun load fname => ?_⟩
    rw [hreturns, (hcode q₃ _ h₃).trans (hcodes _ _).2.2, h₃.2]
    rfl

end Protocol
end PoundDreverHall
