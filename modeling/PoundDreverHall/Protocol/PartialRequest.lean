import PoundDreverHall.Protocol.RoundTrip

/-!
# Protocol - the beginning of a request

The server takes what its first `read` returns, less the last byte, for the whole request.  This
file says what it makes of the beginning of a request.
-/

namespace PoundDreverHall
namespace Protocol

open Device Device.Program Requests Scan Server

/-! ## What a number leaves -/

theorem takeSign_suffix (text : List Char) : (takeSign text).2 <:+ text := by
  rw [takeSign.eq_def]
  split
  · exact List.suffix_cons _ _
  · exact List.suffix_cons _ _
  · exact List.suffix_refl _

theorem leavesSuffix_scanInteger :
    ∀ text sign digits left, scanInteger text = some (sign, digits, left) → left <:+ text := by
  intro text sign digits left hscan
  unfold scanInteger at hscan
  dsimp only at hscan
  split_ifs at hscan
  cases hscan
  exact (List.dropWhile_suffix _).trans ((takeSign_suffix _).trans (List.dropWhile_suffix _))

theorem leavesSuffix_strtoul : LeavesSuffix strtoul := by
  intro text v left hscan
  rcases Option.map_eq_some_iff.mp hscan with ⟨⟨sign, digits, rest⟩, hinteger, heq⟩
  cases heq
  exact leavesSuffix_scanInteger text sign digits left hinteger

theorem leavesSuffix_scanMantissa (digit : Char → Bool) : LeavesSuffix (scanMantissa digit) := by
  intro text number left hscan
  have hdrop := List.dropWhile_suffix (l := text) digit
  unfold scanMantissa at hscan
  dsimp only at hscan
  split at hscan
  · rename_i cs hpoint
    rw [hpoint] at hdrop
    split_ifs at hscan
    cases hscan
    exact (List.dropWhile_suffix _).trans ((List.suffix_cons _ _).trans hdrop)
  · split_ifs at hscan
    cases hscan
    exact hdrop

theorem scanExponent_suffix (mark : Char) (text : List Char) :
    (scanExponent mark text).2 <:+ text := by
  cases text with
  | nil => exact List.suffix_refl _
  | cons c text =>
      unfold scanExponent
      dsimp only
      split_ifs
      · exact (List.dropWhile_suffix _).trans
          ((takeSign_suffix text).trans (List.suffix_cons _ _))
      · exact List.suffix_refl _

theorem leavesSuffix_scanDecimal : LeavesSuffix scanDecimal := by
  intro text number left hscan
  rcases Option.map_eq_some_iff.mp hscan with ⟨⟨mantissa, rest⟩, hmantissa, heq⟩
  cases heq
  exact (scanExponent_suffix 'e' rest).trans
    (leavesSuffix_scanMantissa _ text mantissa rest hmantissa)

theorem leavesSuffix_scanHexadecimal : LeavesSuffix scanHexadecimal := by
  intro text number left hscan
  unfold scanHexadecimal at hscan
  split at hscan
  · split_ifs at hscan
    rcases Option.map_eq_some_iff.mp hscan with ⟨⟨mantissa, rest⟩, hmantissa, heq⟩
    cases heq
    have hrest := leavesSuffix_scanMantissa _ _ mantissa rest hmantissa
    exact (scanExponent_suffix 'p' rest).trans
      (hrest.trans ((List.suffix_cons _ _).trans (List.suffix_cons _ _)))
  · cases hscan

theorem leavesSuffix_scanWord (word : List Char) : LeavesSuffix (scanWord word) := by
  intro text number left hscan
  unfold scanWord at hscan
  split_ifs at hscan
  cases hscan
  exact List.drop_suffix _ _

theorem leavesSuffix_scanInfinity : LeavesSuffix scanInfinity :=
  (leavesSuffix_scanWord _).orElse (leavesSuffix_scanWord _)

theorem leavesSuffix_scanNan : LeavesSuffix scanNan := by
  intro text number left hscan
  rcases Option.map_eq_some_iff.mp hscan with ⟨⟨word, rest⟩, hword, heq⟩
  have hrest := leavesSuffix_scanWord _ text word rest hword
  dsimp only at heq
  split at heq
  · rename_i cs
    split at heq
    · rename_i rest' hclose
      cases heq
      have hdrop := List.drop_suffix
        (cs.takeWhile fun c => c.isAlphanum || (c = '_' : Bool)).length cs
      rw [hclose] at hdrop
      exact (List.suffix_cons _ _).trans (hdrop.trans ((List.suffix_cons _ _).trans hrest))
    · cases heq
      exact hrest
  · cases heq
    exact hrest

theorem leavesSuffix_scanFloat : LeavesSuffix scanFloat := by
  intro text number left hscan
  rw [scanFloat_eq] at hscan
  have hunsigned := leavesSuffix_scanInfinity.orElse
    (leavesSuffix_scanNan.orElse (leavesSuffix_scanHexadecimal.orElse leavesSuffix_scanDecimal))
  rcases Option.map_eq_some_iff.mp hscan with ⟨⟨word, rest⟩, hnumber, heq⟩
  cases heq
  exact (hunsigned _ word left hnumber).trans ((takeSign_suffix _).trans (List.dropWhile_suffix _))

theorem leavesSuffix_strtof {F : Type} [MixedPrecision F] :
    LeavesSuffix (strtof : Scanner Char F) :=
  leavesSuffix_scanFloat.map MixedPrecision.ofText

/-! ## Arguments -/

section Arguments

variable {α : Type} {number : Scanner Char α}

/-- A text that is read as one argument. -/
def Numeral (number : Scanner Char α) (token : List Char) : Prop :=
  ∃ a, Token number token a

/-- The number at the beginning of a text, or {lit}`d` if there is none. -/
def numberOr (number : Scanner Char α) (d : α) (text : List Char) : α :=
  ((number text).map Prod.fst).getD d

theorem Token.reads {token : List Char} {a : α} (h : Token number token a) :
    Reads number token a := by
  have hread := h.read [] (.inl rfl)
  rwa [List.append_nil] at hread

theorem Numeral.token {token : List Char} (h : Numeral number token) (d : α) :
    Token number token (numberOr number d token) := by
  rcases h with ⟨a, ha⟩
  have hvalue : numberOr number d token = a := by
    rw [numberOr, ha.reads]
    rfl
  rwa [hvalue]

/-- Whole arguments are read one after the other, whatever is left of the one behind them. -/
theorem parseArgs_front {front : List (List Char)} (hfront : ∀ t ∈ front, Numeral number t)
    (d : α) (max : ℕ) (hmax : front.length ≤ max) (part : List Char) :
    parseArgs number max ([','].intercalate (front ++ [part])) =
      front.map (numberOr number d) ++ parseArgs number (max - front.length) part := by
  induction front generalizing max with
  | nil => rw [List.nil_append, intercalate_singleton, List.map_nil, List.nil_append,
      List.length_nil, Nat.sub_zero]
  | cons token front ih =>
      rw [List.length_cons] at hmax
      have htoken := (hfront token List.mem_cons_self).token d
      have hrest := ih (fun t ht => hfront t (List.mem_cons_of_mem _ ht)) (max - 1) (by omega)
      have hpos : max = (max - 1) + 1 := by omega
      have hread := htoken.read (',' :: [','].intercalate (front ++ [part]))
        (.inr ⟨_, _, rfl, .inl rfl⟩)
      have hcons : [','].intercalate (token :: front ++ [part]) =
          token ++ ',' :: [','].intercalate (front ++ [part]) := by
        cases front with
        | nil => exact intercalate_cons_cons _ _ _ _
        | cons token' front => exact intercalate_cons_cons _ _ _ _
      rw [hcons, hpos, parseArgs, if_neg (by simp), hread]
      simp only [hrest, List.map_cons, List.cons_append, List.length_cons, Nat.add_sub_add_right]

variable (hsuffix : LeavesSuffix number) (hnil : number [] = none)

include hsuffix hnil

/-- The beginning of an argument is one number or none. -/
theorem parseArgs_part {part : List Char} (hpart : ',' ∉ part) {max : ℕ} (hmax : 0 < max) :
    parseArgs number max part = ((number part).map Prod.fst).toList := by
  rw [← Nat.sub_add_cancel hmax, parseArgs]
  by_cases hempty : part = []
  · rw [if_pos hempty, hempty, hnil]
    rfl
  · rw [if_neg hempty]
    cases hnumber : number part with
    | none => rfl
    | some found =>
        rcases found with ⟨v, rest⟩
        have hleft := hsuffix part v rest hnumber
        split
        · rename_i heq
          cases heq
        · rename_i heq
          cases heq
          exact absurd (hleft.subset List.mem_cons_self) hpart
        · rename_i heq
          cases heq
          rfl

/-- The arguments in the beginning of a list: all of them with the number that is left of the
last one, or fewer. -/
theorem parseArgs_take {front : List (List Char)} {last : List Char}
    (htokens : ∀ t ∈ front ++ [last], Numeral number t) (d : α) (max : ℕ)
    (hmax : front.length < max) {k : ℕ} (hk : k ≤ ([','].intercalate (front ++ [last])).length)
    {part : List Char}
    (hpart : part = last.take (k + last.length - ([','].intercalate (front ++ [last])).length)) :
    (number part = none →
        (parseArgs number max (([','].intercalate (front ++ [last])).take k)).length ≤
          front.length) ∧
      ∀ v rest, number part = some (v, rest) →
        parseArgs number max (([','].intercalate (front ++ [last])).take k) =
          front.map (numberOr number d) ++ [v] := by
  have hcomma : ∀ t ∈ front ++ [last], ∀ j, ',' ∉ t.take j := by
    intro t ht j hmem
    rcases htokens t ht with ⟨a, ha⟩
    exact ha.no_separator _ (List.mem_of_mem_take hmem) (.inl rfl)
  rcases take_intercalate ',' (by simp) hk with ⟨fr, token, back, j, hsplit, hj, hlength, htake⟩
  have hlong := congrArg List.length hsplit
  simp only [List.length_append, List.length_cons, List.length_nil] at hlong
  rw [htake]
  have hfr : ∀ t ∈ fr, Numeral number t :=
    fun t ht => htokens t (by rw [hsplit]; exact List.mem_append_left _ ht)
  have hparse := parseArgs_front hfr d max (by omega) (token.take j)
  rw [hparse, parseArgs_part hsuffix hnil (hcomma token (by rw [hsplit]; simp) j) (by omega)]
  rcases List.eq_nil_or_concat back with rfl | ⟨back, b, rfl⟩
  · -- the cut is in the last argument
    rcases List.append_inj' hsplit rfl with ⟨rfl, hlast⟩
    cases hlast
    have hindex : k + last.length - ([','].intercalate (front ++ [last])).length = j := by
      rw [intercalate_concat, List.length_append]
      omega
    rw [hindex] at hpart
    rw [← hpart]
    constructor
    · intro hnone
      simp [hnone]
    · intro v rest hsome
      simp [hsome]
  · -- the cut is before the last argument, of which nothing is left
    rw [List.concat_eq_append, ← List.cons_append, ← List.append_assoc] at hsplit
    rcases List.append_inj' hsplit rfl with ⟨rfl, hlast⟩
    cases hlast
    have hbefore : k + last.length ≤
        ([','].intercalate (fr ++ token :: back ++ [last])).length := by
      rw [intercalate_concat, List.length_append, List.flatMap_append, List.flatMap_cons,
        List.length_append, List.length_append, List.length_append, List.length_singleton]
      omega
    rw [Nat.sub_eq_zero_of_le hbefore, List.take_zero] at hpart
    constructor
    · intro _
      have hone : ((number (token.take j)).map Prod.fst).toList.length ≤ 1 := by
        cases number (token.take j) with
        | none => exact Nat.zero_le 1
        | some found => exact Nat.le_refl 1
      simp only [List.length_append, List.length_map, List.length_cons]
      omega
    · intro v rest hsome
      rw [hpart, hnil] at hsome
      cases hsome

end Arguments

/-! ## Invocations -/

section Invocation

variable {F : Type} [MixedPrecision F]

/-- The command that a text asks for. -/
def commandOf (text : List Char) : Option (List Char) :=
  (findKey text ['C', 'M', 'D', ':']).map fun cmd => (cmd.takeWhile (· ≠ '\n')).take 255

/-- The handler that the server calls for a text, and its arguments; {lit}`none` if it calls no
handler. -/
def invocationOf (F : Type) [MixedPrecision F] (text : List Char) :
    Option (Handler × List F × List (BitVec 32)) :=
  (loadContext text).bind fun ctx : LoadedCtx F =>
    (findEntry ctx.name).bind fun e =>
      if e.check ctx = .ok then some (e.func, floatsOf ctx, uintsOf ctx) else none

/-- The handler that the server calls for the bytes of one `read`, and its arguments. -/
def invocation (F : Type) [MixedPrecision F] (inbuff : List Char) :
    Option (Handler × List F × List (BitVec 32)) :=
  invocationOf F (cString inbuff.dropLast)

/-- The arguments that a text has are enough for a command. -/
structure Enough (F : Type) [MixedPrecision F] (text : List Char) (e : CmdEntry) : Prop where
  floats : e.requiredFloats ≤ (argsOf parseFloats text ['F', ':'] : List F).length
  ints : e.requiredInts ≤ (argsOf parseInts text ['I', ':']).length
  uints : e.requiredUints ≤ (argsOf parseUints text ['U', ':']).length

/-- A text that asks for a command with enough arguments. -/
theorem invocationOf_some {text name : List Char} {e : CmdEntry}
    (hname : commandOf text = some name)
    (hentry : findEntry name = some e) (henough : Enough F text e) :
    invocationOf F text =
      some (e.func, argsOf parseFloats text ['F', ':'], argsOf parseUints text ['U', ':']) := by
  rcases Option.map_eq_some_iff.mp hname with ⟨cmd, hcmd, rfl⟩
  unfold invocationOf loadContext
  rw [hcmd, Option.map_some, Option.bind_some]
  dsimp only
  rw [hentry, Option.bind_some, if_pos (check_eq_ok_iff.mpr ⟨henough.1, henough.2, henough.3⟩)]
  simp only [floatsOf, uintsOf, map_range_getD]

/-- A text that asks for no command. -/
theorem invocationOf_none {text : List Char}
    (h : ∀ name e, commandOf text = some name → findEntry name = some e → ¬Enough F text e) :
    invocationOf F text = none := by
  unfold invocationOf
  rw [Option.bind_eq_none_iff]
  intro ctx hctx
  rcases Option.map_eq_some_iff.mp hctx with ⟨cmd, hcmd, rfl⟩
  rw [Option.bind_eq_none_iff]
  intro e hentry
  have hname : commandOf text = some ((cmd.takeWhile (· ≠ '\n')).take 255) := by
    rw [commandOf, hcmd, Option.map_some]
  rw [if_neg]
  intro hcheck
  rcases check_eq_ok_iff.mp hcheck with ⟨hfloats, hints, huints⟩
  exact h _ e hname hentry ⟨hfloats, hints, huints⟩

/-- What the server runs is the handler of the invocation on the arguments of the invocation, and it
answers with what the handler returns. -/
theorem performs_serve_invocation {stack : BitVec 32} {inbuff : List Char} {tr : Trace}
    {reply : Option (List Char)} (hrun : Performs (serve F stack inbuff) tr reply) :
    match invocation F inbuff with
    | none => tr = []
    | some (h, fs, us) =>
        ∃ (ctx : CmdCtx F) (r : Reply F), Performs (h.run stack ctx) tr r ∧
          ctx.floatArgs = (fun i => fs.getD i (SinglePrecision.lit 0)) ∧
          ctx.uintArgs = (fun i => us.getD i 0#32) ∧ ctx.numFloats = fs.length ∧
          ∃ name, reply = sendResponse name r := by
  unfold invocation invocationOf
  cases hload : (loadContext (cString inbuff.dropLast) : Option (LoadedCtx F)) with
  | none => exact ((performs_serve_none hload).mp hrun).1
  | some ctx =>
      have hctx := hload
      rcases Option.map_eq_some_iff.mp hctx with ⟨cmd, -, hfields⟩
      rcases performs_serve_some hload hrun with ⟨e, r, he, hhandler, hreply⟩ | ⟨hnone, htr, -⟩
      · rw [Option.bind_some, he.1, Option.bind_some, if_pos he.2]
        refine ⟨ctx.toCmdCtx, r, hhandler, ?_⟩
        subst hfields
        simp only [floatsOf, uintsOf, map_range_getD]
        exact ⟨trivial, trivial, trivial, _, hreply⟩
      · rw [Option.bind_some]
        cases hentry : findEntry ctx.name with
        | none => exact htr
        | some e =>
            have hcheck : e.check ctx ≠ .ok := fun h => hnone e ⟨hentry, h⟩
            rw [Option.bind_some, if_neg hcheck]
            exact htr

end Invocation

/-! ## Lines of a request -/

section Lines

theorem isPrefixOf_eq_false {k : Char} {key line : List Char} (hhead : line.head? ≠ some k) :
    (k :: key).isPrefixOf line = false := by
  cases line with
  | nil => rfl
  | cons c line =>
      have hc : k ≠ c := fun heq => hhead (by rw [heq]; rfl)
      simp [List.isPrefixOf, hc]

theorem head?_take_ne {line : List Char} {c : Char} (hhead : line.head? ≠ some c) (j : ℕ) :
    (line.take j).head? ≠ some c := by
  cases j with
  | zero => simp
  | succ j => rwa [List.head?_take, if_neg (Nat.succ_ne_zero j)]

section FindKey

variable {key : List Char} (hkey : '\n' ∉ key) (hne : key ≠ [])

include hkey hne

/-- A key with which no line begins is not found. -/
theorem findKey_eq_none {lines : List (List Char)} (hlines : ∀ line ∈ lines, '\n' ∉ line)
    (hother : ∀ line ∈ lines, key.isPrefixOf line = false) :
    findKey (['\n'].intercalate lines) key = none := by
  have hdrop : (lines.dropWhile fun line => !key.isPrefixOf line) = [] := by
    rw [List.dropWhile_eq_nil_iff]
    intro line hline
    rw [hother line hline]
    rfl
  rw [findKey_intercalate hkey hne hlines, hdrop]

/-- The first line that begins with a key is found. -/
theorem findKey_append_cons {pre back : List (List Char)} {line : List Char}
    (hlines : ∀ l ∈ pre ++ line :: back, '\n' ∉ l)
    (hpre : ∀ l ∈ pre, key.isPrefixOf l = false) (hline : key.isPrefixOf line = true) :
    findKey (['\n'].intercalate (pre ++ line :: back)) key =
      some ((line ++ linesAfter back).drop key.length) := by
  have hdrop : ((pre ++ line :: back).dropWhile fun l => !key.isPrefixOf l) = line :: back := by
    rw [List.dropWhile_append_of_pos, List.dropWhile_cons, hline]
    · rfl
    · intro l hl
      rw [hpre l hl]
      rfl
  rw [findKey_intercalate hkey hne hlines, hdrop]

end FindKey

/-- The line with the command. -/
def commandLine (name : List Char) : List Char :=
  ['C', 'M', 'D', ':'] ++ name

/-- The command of lines of which the first one is the beginning of a line with a command. -/
theorem commandOf_lines {name : List Char} (hname : name.length < 256) {i : ℕ}
    {lines : List (List Char)} (hlines : ∀ l ∈ (commandLine name).take i :: lines, '\n' ∉ l)
    (hheads : ∀ l ∈ lines, l.head? ≠ some 'C') :
    commandOf (['\n'].intercalate ((commandLine name).take i :: lines)) =
      if 4 ≤ i then some (name.take (i - 4)) else none := by
  split_ifs with hi
  · have htake : (commandLine name).take i = ['C', 'M', 'D', ':'] ++ name.take (i - 4) := by
      rw [commandLine, List.take_append, List.take_of_length_le (by simpa using hi)]
      rfl
    have hnewline : '\n' ∉ name.take (i - 4) := by
      have hfirst := hlines _ List.mem_cons_self
      rw [htake, List.mem_append, not_or] at hfirst
      exact hfirst.2
    have hfound : findKey (['\n'].intercalate ((commandLine name).take i :: lines))
        ['C', 'M', 'D', ':'] = some (name.take (i - 4) ++ linesAfter lines) := by
      rw [findKey_intercalate (by decide) (by decide) hlines, htake]
      rfl
    have hall : ∀ c ∈ name.take (i - 4), (c ≠ '\n' : Bool) = true := by
      intro c hc
      rw [decide_eq_true_eq]
      rintro rfl
      exact hnewline hc
    rw [commandOf, hfound, Option.map_some, List.takeWhile_append_of_pos hall]
    have htail : (linesAfter lines).takeWhile (· ≠ '\n') = [] := by
      rcases linesAfter_eq lines with htail | ⟨rest, htail⟩
      · rw [htail]; rfl
      · rw [htail]; rfl
    rw [htail, List.append_nil, List.take_of_length_le]
    rw [List.length_take]
    omega
  · have hshort : ['C', 'M', 'D', ':'].isPrefixOf ((commandLine name).take i) = false := by
      have hi : i = 0 ∨ i = 1 ∨ i = 2 ∨ i = 3 := by omega
      rcases hi with rfl | rfl | rfl | rfl <;> rfl
    have hother : ∀ line ∈ (commandLine name).take i :: lines,
        ['C', 'M', 'D', ':'].isPrefixOf line = false := by
      intro line hline
      rcases List.mem_cons.mp hline with rfl | hline
      · exact hshort
      · exact isPrefixOf_eq_false (hheads line hline)
    rw [commandOf, findKey_eq_none (by decide) (by decide) hlines hother, Option.map_none]

end Lines

/-! ## The beginning of a request -/

/-- A request for a command of the table, with as many arguments as the command requires.  At its
end is a line of unsigned arguments, a line with one floating-point argument, or the command. -/
structure CompleteRequest (e : CmdEntry) (floats uints : Option (List (List Char))) : Prop where
  mem : e ∈ gCmds
  literals : ∀ t ∈ floats.getD [], FloatLiteral t
  numerals : ∀ t ∈ uints.getD [], Numeral strtoul t
  enough_floats : e.requiredFloats ≤ (floats.getD []).length
  all_uints : e.requiredUints = (uints.getD []).length
  some_uint : uints ≠ some []
  one_float : uints = none → ∀ ts, floats = some ts → ts.length = 1 ∧ e.requiredFloats = 1

/-- What the table has in common. -/
theorem gCmds_entry : ∀ e ∈ gCmds, '\n' ∉ e.name ∧ '\x00' ∉ e.name ∧ e.name.length < 256 ∧
    e.requiredFloats ≤ 64 ∧ e.requiredInts = 0 ∧ e.requiredUints ≤ 10 := by
  decide

/-- The beginning of a name in the table is no other name in the table. -/
theorem findEntry_take {e e' : CmdEntry} (he : e ∈ gCmds) {i : ℕ}
    (hfound : findEntry (e.name.take i) = some e') : e' = e ∧ e.name.take i = e.name := by
  have hshort : (gCmds.all fun e => (List.range e.name.length).all fun i =>
      findEntry (e.name.take i) = none) = true := by decide
  by_cases hi : i < e.name.length
  · have hnone := List.all_eq_true.mp (List.all_eq_true.mp hshort e he) i (List.mem_range.mpr hi)
    rw [of_decide_eq_true hnone] at hfound
    cases hfound
  · rw [List.take_of_length_le (by omega)] at hfound ⊢
    rw [findEntry_name e he] at hfound
    cases hfound
    exact ⟨rfl, rfl⟩

section Complete

variable {e : CmdEntry} {floats uints : Option (List (List Char))}
  (h : CompleteRequest e floats uints)

include h

theorem CompleteRequest.plain : PlainRequest e.name floats uints where
  newline := (gCmds_entry e h.mem).1
  nul := (gCmds_entry e h.mem).2.1
  floats := fun t ht => (h.literals t ht).isToken (F := ℚ) |>.no_separator
  uints := fun t ht => by
    rcases h.numerals t ht with ⟨a, ha⟩
    exact ha.no_separator

/-- What the server sees of the beginning of a request: whole lines and the beginning of one
more. -/
theorem CompleteRequest.cString_take {n : ℕ} (hn : 0 < n)
    (hle : n ≤ (requestText e.name floats uints).length) :
    ∃ front line back j, requestLines e.name floats uints = front ++ line :: back ∧
      j ≤ line.length ∧ n = (front.flatMap fun l => l ++ ['\n']).length + j + 1 ∧
      cString ((requestText e.name floats uints).take n).dropLast =
        ['\n'].intercalate (front ++ [line.take j]) ∧
      ∀ l ∈ front ++ [line.take j], '\n' ∉ l := by
  have htext : (requestText e.name floats uints).dropLast =
      ['\n'].intercalate (requestLines e.name floats uints) := dropLast_flatMap_concat _ _
  have hne : requestLines e.name floats uints ≠ [] := List.cons_ne_nil _ _
  have hk : n - 1 ≤ (['\n'].intercalate (requestLines e.name floats uints)).length := by
    rw [← htext, List.length_dropLast]
    omega
  rcases take_intercalate '\n' hne hk with
    ⟨front, line, back, j, hlines, hj, hlength, htake⟩
  have hmem : ∀ {c : Char}, c = '\n' ∨ c = '\x00' → ∀ l ∈ front ++ [line.take j], c ∉ l := by
    intro c hc l hl
    rcases List.mem_append.mp hl with hl | hl
    · exact h.plain.not_mem hc l (by rw [hlines]; exact List.mem_append_left _ hl)
    · rw [List.mem_singleton.mp hl]
      exact fun hcl => h.plain.not_mem hc line (by rw [hlines]; simp) (List.mem_of_mem_take hcl)
  have hseen : ((requestText e.name floats uints).take n).dropLast =
      ['\n'].intercalate (front ++ [line.take j]) := by
    rw [← htake, ← htext, List.dropLast_eq_take, List.dropLast_eq_take, List.take_take,
      List.take_take, List.length_take]
    congr 1
    omega
  refine ⟨front, line, back, j, hlines, hj, by omega, ?_, hmem (.inl rfl)⟩
  rw [hseen, cString, List.takeWhile_eq_self_iff]
  intro c hc
  rw [decide_eq_true_eq]
  rintro rfl
  exact not_mem_intercalate (by decide) (hmem (.inr rfl)) hc

omit h in
/-- The lines that the server sees begin with the line of the command or its beginning. -/
theorem requestLines_take {front back : List (List Char)} {line : List Char}
    (hlines : requestLines e.name floats uints = front ++ line :: back) (j : ℕ) :
    ∃ i rest, front ++ [line.take j] = (commandLine e.name).take i :: rest ∧
      (∀ l ∈ rest, l.head? ≠ some 'C') ∧ (front ≠ [] → (commandLine e.name).length ≤ i) := by
  have hargs : ∀ l ∈ (floats.map (argsLine 'F')).toList ++ (uints.map (argsLine 'U')).toList,
      l.head? ≠ some 'C' := by
    intro l hl
    simp only [List.mem_append, Option.mem_toList, Option.map_eq_some_iff] at hl
    rcases hl with ⟨tokens, -, rfl⟩ | ⟨tokens, -, rfl⟩
    · simp [argsLine]
    · simp [argsLine]
  cases front with
  | nil =>
      rcases List.cons_eq_cons.mp hlines with ⟨rfl, -⟩
      exact ⟨j, [], rfl, by simp, fun h => absurd rfl h⟩
  | cons first front =>
      rcases List.cons_eq_cons.mp hlines with ⟨rfl, hrest⟩
      refine ⟨(commandLine e.name).length, front ++ [line.take j], ?_, ?_, fun _ => Nat.le_refl _⟩
      · rw [List.take_length]
        rfl
      · intro l hl
        rcases List.mem_append.mp hl with hl | hl
        · exact hargs l (by rw [hrest]; exact List.mem_append_left _ hl)
        · rw [List.mem_singleton.mp hl]
          exact head?_take_ne (hargs line (by rw [hrest]; simp)) j

/-- Lines without all arguments call no handler. -/
theorem CompleteRequest.invocationOf_none {F : Type} [MixedPrecision F] {i : ℕ}
    {lines : List (List Char)} (hlines : ∀ l ∈ (commandLine e.name).take i :: lines, '\n' ∉ l)
    (hheads : ∀ l ∈ lines, l.head? ≠ some 'C')
    (hmissing : ¬Enough F (['\n'].intercalate ((commandLine e.name).take i :: lines)) e) :
    invocationOf F (['\n'].intercalate ((commandLine e.name).take i :: lines)) = none := by
  apply Protocol.invocationOf_none
  intro name e' hname hentry henough
  rw [commandOf_lines (gCmds_entry e h.mem).2.2.1 hlines hheads] at hname
  split_ifs at hname
  cases hname
  rcases findEntry_take h.mem hentry with ⟨rfl, -⟩
  exact hmissing henough

/-- Lines with the whole command and all arguments call its handler. -/
theorem CompleteRequest.invocationOf_some {F : Type} [MixedPrecision F] {i : ℕ}
    {lines : List (List Char)} (hlines : ∀ l ∈ (commandLine e.name).take i :: lines, '\n' ∉ l)
    (hheads : ∀ l ∈ lines, l.head? ≠ some 'C') (hi : (commandLine e.name).length ≤ i)
    (henough : Enough F (['\n'].intercalate ((commandLine e.name).take i :: lines)) e) :
    invocationOf F (['\n'].intercalate ((commandLine e.name).take i :: lines)) =
      some (e.func,
        argsOf parseFloats (['\n'].intercalate ((commandLine e.name).take i :: lines)) ['F', ':'],
        argsOf parseUints (['\n'].intercalate ((commandLine e.name).take i :: lines))
          ['U', ':']) := by
  have hname := commandOf_lines (gCmds_entry e h.mem).2.2.1 hlines hheads
  have hlength : (commandLine e.name).length = 4 + e.name.length := by
    rw [commandLine, List.length_append]
    rfl
  have hall : e.name.take (i - 4) = e.name := List.take_of_length_le (by omega)
  rw [if_pos (by omega), hall] at hname
  exact Protocol.invocationOf_some hname (findEntry_name e h.mem) henough

/-- What the server sees of a request whose last line has arguments: all lines with the beginning
of the arguments, of which {lit}`part` is left of the last one, or nothing of the arguments. -/
theorem CompleteRequest.take_cases {key : Char} {before : List (List Char)}
    {front : List (List Char)} {last : List Char}
    (hrequest : requestLines e.name floats uints = before ++ [argsLine key (front ++ [last])])
    (hne : before ≠ []) (hbefore : ∀ l ∈ before, l.head? ≠ some key) {n : ℕ} (hn : 0 < n)
    (hle : n ≤ (requestText e.name floats uints).length) {part : List Char}
    (hpart : part = last.take (n + last.length - (requestText e.name floats uints).length)) :
    ∃ i rest, cString ((requestText e.name floats uints).take n).dropLast =
        ['\n'].intercalate ((commandLine e.name).take i :: rest) ∧
      (∀ l ∈ (commandLine e.name).take i :: rest, '\n' ∉ l) ∧ (∀ l ∈ rest, l.head? ≠ some 'C') ∧
      ((part = [] ∧ ∀ l ∈ (commandLine e.name).take i :: rest, [key, ':'].isPrefixOf l = false) ∨
        ∃ k ≤ ([','].intercalate (front ++ [last])).length,
          part = last.take (k + last.length - ([','].intercalate (front ++ [last])).length) ∧
          (commandLine e.name).length ≤ i ∧
          (commandLine e.name).take i :: rest =
            before ++ [[key, ':'] ++ ([','].intercalate (front ++ [last])).take k]) := by
  rcases h.cString_take hn hle with ⟨fr, line, back, j, hsplit, hj, hlength, hseen, hnewline⟩
  rcases requestLines_take hsplit j with ⟨i, rest, hcons, hheads, hi⟩
  have htotal : (requestText e.name floats uints).length =
      (before.flatMap fun l => l ++ ['\n']).length +
        (2 + ([','].intercalate (front ++ [last])).length) + 1 := by
    rw [requestText, hrequest, List.flatMap_append, List.flatMap_singleton, List.length_append,
      List.length_append, argsLine, List.length_cons, List.length_cons, List.length_singleton]
    omega
  have hargs : last.length ≤ ([','].intercalate (front ++ [last])).length := by
    rw [intercalate_concat, List.length_append]
    omega
  rw [hrequest] at hsplit
  rw [htotal] at hpart
  refine ⟨i, rest, by rw [hseen, hcons], by rwa [hcons] at hnewline, hheads, ?_⟩
  rw [← hcons]
  rcases List.eq_nil_or_concat back with rfl | ⟨back, b, rfl⟩
  · rcases List.append_inj' hsplit rfl with ⟨rfl, hline⟩
    cases hline
    rw [argsLine, List.length_cons, List.length_cons] at hj
    by_cases hkey : 2 ≤ j
    · -- the cut is behind the key of the last line
      refine .inr ⟨j - 2, by omega, ?_, hi hne, ?_⟩
      · rw [hpart]
        congr 1
        omega
      · have hpos : j = (j - 2) + 1 + 1 := by omega
        rw [hpos]
        rfl
    · refine .inl ⟨?_, fun l hl => ?_⟩
      · rw [hpart, Nat.sub_eq_zero_of_le (by omega), List.take_zero]
      · rcases List.mem_append.mp hl with hl | hl
        · exact isPrefixOf_eq_false (hbefore l hl)
        · have hj : j = 0 ∨ j = 1 := by omega
          rw [List.mem_singleton.mp hl]
          rcases hj with rfl | rfl
          · rfl
          · simp [argsLine]
  · -- the cut is in a line before the last one
    rw [List.concat_eq_append, ← List.cons_append, ← List.append_assoc] at hsplit
    rcases List.append_inj' hsplit rfl with ⟨rfl, -⟩
    refine .inl ⟨?_, fun l hl => ?_⟩
    · rw [List.flatMap_append, List.flatMap_cons, List.length_append, List.length_append,
        List.length_append, List.length_singleton] at hpart
      rw [hpart, Nat.sub_eq_zero_of_le (by omega), List.take_zero]
    · apply isPrefixOf_eq_false
      rcases List.mem_append.mp hl with hl | hl
      · exact hbefore l (List.mem_append_left _ hl)
      · rw [List.mem_singleton.mp hl]
        exact head?_take_ne (hbefore line (by simp)) j

section UnsignedArguments

variable {front : List (List Char)} {last : List Char}

/-- The lines in front of the unsigned arguments. -/
def linesBefore (name : List Char) (floats : Option (List (List Char))) : List (List Char) :=
  commandLine name :: (floats.map (argsLine 'F')).toList

omit h in
theorem head?_linesBefore (name : List Char) (floats : Option (List (List Char))) :
    ∀ l ∈ linesBefore name floats, l.head? ≠ some 'U' := by
  intro l hl
  simp only [linesBefore, List.mem_cons, Option.mem_toList, Option.map_eq_some_iff] at hl
  rcases hl with rfl | ⟨tokens, -, rfl⟩
  · simp [commandLine]
  · simp [argsLine]

omit h in
theorem requestLines_some (name : List Char) (floats : Option (List (List Char)))
    (tokens : List (List Char)) :
    requestLines name floats (some tokens) = linesBefore name floats ++ [argsLine 'U' tokens] :=
  rfl

/-- The floating-point arguments do not depend on what is left of the unsigned ones. -/
theorem CompleteRequest.floats_seen {F : Type} [MixedPrecision F] {args : List Char}
    (hlines : ∀ l ∈ linesBefore e.name floats ++ [['U', ':'] ++ args], '\n' ∉ l) :
    argsOf parseFloats (['\n'].intercalate (linesBefore e.name floats ++ [['U', ':'] ++ args]))
      ['F', ':'] = ((floats.getD []).take 64).map (MixedPrecision.ofText : List Char → F) := by
  have hcommand : ['F', ':'].isPrefixOf (commandLine e.name) = false := rfl
  have hcut : ['F', ':'].isPrefixOf (['U', ':'] ++ args) = false := rfl
  rw [argsOf]
  cases floats with
  | none =>
      have hother : ∀ l ∈ linesBefore e.name none ++ [['U', ':'] ++ args],
          ['F', ':'].isPrefixOf l = false := by
        intro l hl
        rcases List.mem_pair.mp hl with rfl | rfl
        · exact hcommand
        · exact hcut
      rw [findKey_eq_none (by decide) (by decide) hlines hother]
      rfl
  | some tokens =>
      have hkey : '\n' ∉ ['F', ':'] := by decide
      have hlines' : ∀ l ∈ [commandLine e.name] ++ argsLine 'F' tokens :: [['U', ':'] ++ args],
          '\n' ∉ l := hlines
      have hfound := findKey_append_cons hkey (List.cons_ne_nil _ _) hlines'
        (fun l hl => by rw [List.mem_singleton.mp hl]; exact hcommand) rfl
      have htext : [commandLine e.name] ++ argsLine 'F' tokens :: [['U', ':'] ++ args] =
          linesBefore e.name (some tokens) ++ [['U', ':'] ++ args] := rfl
      rw [← htext, hfound]
      apply parseArgs_intercalate (linesAfter_eq _) fun t ht => (h.literals t ht).isToken
      intro _ _
      have hafter : linesAfter [['U', ':'] ++ args] = '\n' :: 'U' :: ':' :: args := by simp [linesAfter]
      rw [hafter]
      exact strtof_emptyLine (':' :: args)

omit h in
/-- What is left of the unsigned arguments. -/
theorem argsOf_uints {name args : List Char}
    (hlines : ∀ l ∈ linesBefore name floats ++ [['U', ':'] ++ args], '\n' ∉ l) :
    argsOf parseUints (['\n'].intercalate (linesBefore name floats ++ [['U', ':'] ++ args]))
      ['U', ':'] = parseUints args := by
  have hkey : '\n' ∉ ['U', ':'] := by decide
  have hfound := findKey_append_cons hkey (List.cons_ne_nil _ _) hlines
    (fun l hl => isPrefixOf_eq_false (head?_linesBefore name floats l hl)) rfl
  rw [argsOf, hfound, linesAfter, List.append_nil]
  rfl

/-- Without the unsigned arguments no handler is called. -/
theorem CompleteRequest.invocationOf_no_uints {F : Type} [MixedPrecision F]
    (hsome : uints = some (front ++ [last])) {i : ℕ} {lines : List (List Char)}
    (hlines : ∀ l ∈ (commandLine e.name).take i :: lines, '\n' ∉ l)
    (hheads : ∀ l ∈ lines, l.head? ≠ some 'C')
    (hother : ∀ l ∈ (commandLine e.name).take i :: lines, ['U', ':'].isPrefixOf l = false) :
    invocationOf F (['\n'].intercalate ((commandLine e.name).take i :: lines)) = none := by
  apply h.invocationOf_none hlines hheads
  intro henough
  have hcount := henough.uints
  rw [argsOf, findKey_eq_none (by decide) (by decide) hlines hother, h.all_uints, hsome] at hcount
  simp at hcount

/-- What the server calls for the beginning of a request with unsigned arguments: the handler of
the request, with the number that is left of the last argument, or none if there is no number. -/
theorem CompleteRequest.invocation_take_uints {F : Type} [MixedPrecision F]
    (hsome : uints = some (front ++ [last])) {n : ℕ} (hn : 0 < n)
    (hle : n ≤ (requestText e.name floats uints).length) {part : List Char}
    (hpart : part = last.take (n + last.length - (requestText e.name floats uints).length)) :
    (strtoul part = none → invocation F ((requestText e.name floats uints).take n) = none) ∧
      ∀ v rest, strtoul part = some (v, rest) →
        invocation F ((requestText e.name floats uints).take n) =
          some (e.func, ((floats.getD []).take 64).map MixedPrecision.ofText,
            front.map (numberOr strtoul 0#32) ++ [v]) := by
  subst hsome
  rcases h.take_cases (requestLines_some _ _ _) (List.cons_ne_nil _ _)
      (head?_linesBefore e.name floats) hn hle hpart with
    ⟨i, rest, hseen, hlines, hheads, ⟨rfl, hother⟩ | ⟨k, hk, hpart, hi, hcons⟩⟩
  · rw [invocation, hseen]
    exact ⟨fun _ => h.invocationOf_no_uints rfl hlines hheads hother, nofun⟩
  · have hcount : e.requiredUints = front.length + 1 := by
      rw [h.all_uints, Option.getD_some, List.length_append, List.length_singleton]
    have hten := (gCmds_entry e h.mem).2.2.2.2.2
    have hparse := parseArgs_take leavesSuffix_strtoul rfl h.numerals 0#32 10 (by omega) hk hpart
    have hcut := hlines
    rw [hcons] at hcut
    have huints := argsOf_uints hcut
    have hfloats := h.floats_seen (F := F) hcut
    unfold parseUints at huints
    rw [invocation, hseen]
    constructor
    · intro hpart
      apply h.invocationOf_none hlines hheads
      intro henough
      have hfew := henough.uints
      unfold parseUints at hfew
      rw [hcons, huints, hcount] at hfew
      have hshort := hparse.1 hpart
      omega
    · intro v rest' hpart
      rw [hparse.2 v rest' hpart] at huints
      have henough : Enough F (['\n'].intercalate ((commandLine e.name).take i :: rest)) e := by
        rw [hcons]
        refine ⟨?_, ?_, ?_⟩
        · have hfloat := (gCmds_entry e h.mem).2.2.2.1
          rw [hfloats, List.length_map, List.length_take]
          have henough := h.enough_floats
          omega
        · rw [(gCmds_entry e h.mem).2.2.2.2.1]
          exact Nat.zero_le _
        · unfold parseUints
          rw [huints, hcount, List.length_append, List.length_map, List.length_singleton]
      have hrun := h.invocationOf_some hlines hheads hi henough
      unfold parseUints at hrun
      rw [hcons] at hrun ⊢
      rwa [hfloats, huints] at hrun

end UnsignedArguments

section FloatArgument

variable {F : Type} [MixedPrecision F] {name args : List Char}
  (hlines : ∀ l ∈ [commandLine name] ++ [['F', ':'] ++ args], '\n' ∉ l)

include hlines

omit h in
/-- What is left of the floating-point argument of a request that has no other. -/
theorem argsOf_float :
    argsOf (parseFloats (F := F)) (['\n'].intercalate ([commandLine name] ++ [['F', ':'] ++ args]))
      ['F', ':'] = parseFloats args := by
  have hkey : '\n' ∉ ['F', ':'] := by decide
  have hcommand : ['F', ':'].isPrefixOf (commandLine name) = false := rfl
  have hfound := findKey_append_cons hkey (List.cons_ne_nil _ _) hlines
    (fun l hl => by rw [List.mem_singleton.mp hl]; exact hcommand) rfl
  rw [argsOf, hfound, linesAfter, List.append_nil]
  rfl

omit h in
theorem argsOf_float_uints :
    argsOf parseUints (['\n'].intercalate ([commandLine name] ++ [['F', ':'] ++ args]))
      ['U', ':'] = [] := by
  have hother : ∀ l ∈ [commandLine name] ++ [['F', ':'] ++ args],
      ['U', ':'].isPrefixOf l = false := by
    intro l hl
    rcases List.mem_pair.mp hl with rfl | rfl <;> rfl
  rw [argsOf, findKey_eq_none (by decide) (by decide) hlines hother]

end FloatArgument

/-- What the server calls for the beginning of a request whose only argument is a floating-point
number. -/
theorem CompleteRequest.invocation_take_float {F : Type} [MixedPrecision F] {last : List Char}
    (hfloats : floats = some [last]) (huints : uints = none) {n : ℕ} (hn : 0 < n)
    (hle : n ≤ (requestText e.name floats uints).length) {part : List Char}
    (hpart : part = last.take (n + last.length - (requestText e.name floats uints).length)) :
    (strtof part = (none : Option (F × List Char)) →
        invocation F ((requestText e.name floats uints).take n) = none) ∧
      ∀ (v : F) rest, strtof part = some (v, rest) →
        invocation F ((requestText e.name floats uints).take n) = some (e.func, [v], []) := by
  subst hfloats huints
  have hrequired := (h.one_float rfl [last] rfl).2
  have hnone : (strtof [] : Option (F × List Char)) = none := rfl
  have htwo : requestLines e.name (some [last]) none =
      [commandLine e.name] ++ [argsLine 'F' ([] ++ [last])] := rfl
  have hhead : ∀ l ∈ [commandLine e.name], l.head? ≠ some 'F' := by
    intro l hl
    rw [List.mem_singleton.mp hl]
    simp [commandLine]
  rcases h.take_cases htwo (List.cons_ne_nil _ _) hhead hn hle hpart with
    ⟨i, rest, hseen, hlines, hheads, ⟨rfl, hother⟩ | ⟨k, hk, hpart, hi, hcons⟩⟩
  · rw [invocation, hseen]
    refine ⟨fun _ => h.invocationOf_none hlines hheads fun henough => ?_, fun v rest' hsome => ?_⟩
    · have hcount := henough.floats
      rw [argsOf, findKey_eq_none (by decide) (by decide) hlines hother, hrequired] at hcount
      exact absurd hcount (Nat.not_succ_le_zero 0)
    · rw [hnone] at hsome
      cases hsome
  · rw [List.nil_append, intercalate_singleton] at hk hpart hcons
    rw [Nat.add_sub_cancel] at hpart
    have hcut := hlines
    rw [hcons] at hcut
    have hcomma : ',' ∉ part := by
      intro hmem
      rw [hpart] at hmem
      exact (h.literals last (by simp)).isToken (F := F) |>.no_separator _
        (List.mem_of_mem_take hmem) (.inl rfl)
    have hfloats : argsOf parseFloats (['\n'].intercalate ([commandLine e.name] ++
        [['F', ':'] ++ last.take k])) ['F', ':'] =
          ((strtof part : Option (F × List Char)).map Prod.fst).toList := by
      rw [argsOf_float hcut, ← hpart]
      exact parseArgs_part leavesSuffix_strtof hnone hcomma (by decide)
    rw [invocation, hseen]
    constructor
    · intro hpart
      apply h.invocationOf_none hlines hheads
      intro henough
      have hcount := henough.floats
      rw [hcons, hfloats, hpart, hrequired] at hcount
      exact absurd hcount (Nat.not_succ_le_zero 0)
    · intro v rest' hpart
      rw [hpart] at hfloats
      have henough : Enough F (['\n'].intercalate ((commandLine e.name).take i :: rest)) e := by
        rw [hcons]
        refine ⟨?_, ?_, ?_⟩
        · rw [hfloats, hrequired]
          exact Nat.le_refl 1
        · rw [(gCmds_entry e h.mem).2.2.2.2.1]
          exact Nat.zero_le _
        · rw [h.all_uints]
          exact Nat.zero_le _
      have hrun := h.invocationOf_some hlines hheads hi henough
      rw [hcons] at hrun ⊢
      rwa [hfloats, argsOf_float_uints hcut] at hrun

/-- The beginning of a request without arguments calls no handler. -/
theorem CompleteRequest.invocation_take_none {F : Type} [MixedPrecision F]
    (hfloats : floats = none) (huints : uints = none) {n : ℕ} (hn : 0 < n)
    (hlt : n < (requestText e.name floats uints).length) :
    invocation F ((requestText e.name floats uints).take n) = none := by
  rcases h.cString_take hn hlt.le with ⟨fr, line, back, j, hsplit, hj, hlength, hseen, hnewline⟩
  subst hfloats huints
  have hone : requestLines e.name none none = [commandLine e.name] := rfl
  rw [hone, eq_comm, List.append_eq_singleton_iff] at hsplit
  rcases hsplit with ⟨rfl, hline⟩ | ⟨-, hline⟩
  · cases hline
    rw [requestText, hone, List.flatMap_singleton, List.length_append, List.length_singleton]
      at hlt
    rw [List.flatMap_nil, List.length_nil] at hlength
    have hcommand : (commandLine e.name).length = 4 + e.name.length := by
      rw [commandLine, List.length_append]
      rfl
    unfold invocation
    rw [hseen]
    apply Protocol.invocationOf_none
    intro name e' hname hentry _
    rw [List.nil_append] at hname hnewline
    rw [commandOf_lines (gCmds_entry e h.mem).2.2.1 hnewline (by simp)] at hname
    split_ifs at hname
    cases hname
    have hwhole := congrArg List.length (findEntry_take h.mem hentry).2
    rw [List.length_take] at hwhole
    omega
  · cases hline

end Complete

end Protocol
end PoundDreverHall
