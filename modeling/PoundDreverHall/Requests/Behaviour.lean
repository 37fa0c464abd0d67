import PoundDreverHall.Requests.Words
import PoundDreverHall.Server.Dispatch

/-!
# Requests - what a handler does

The word of a command is sent twice, with the strobe low and then high, and its top bit
resets the core.  Every handler besides `cmd_reset_fpga` sends its words in such pairs.
The top bit is clear in all of them but those of `cmd_config_io`, where it is what the
stack held.

Main results:

- Definition {lit}`Orderly`: a trace of well-formed words that leaves no file open.
- Theorem {lit}`words_spec`: the words that a handler sends.
- Theorem {lit}`files_spec`: the files that a handler opens are closed.
- Theorem {lit}`sends_wellFormed_iff`: when a handler sends well-formed words.
-/

namespace PoundDreverHall
namespace Requests

open Device Device.Program Server PdhCore

/-- The calls of a handler and the responses it got. -/
abbrev Trace : Type :=
  List ((c : Call) × c.Response)

/-! ## Pairs of words -/

/-- Consecutive words come in pairs that differ in bit 30 alone, which is clear in the first
word and set in the second. -/
def InPairs : List (BitVec 32) → Prop
  | [] => True
  | [_] => False
  | low :: high :: words =>
      (low.getLsbD 30 = false ∧ high.getLsbD 30 = true ∧
        ∀ i, i ≠ 30 → low.getLsbD i = high.getLsbD i) ∧ InPairs words

/-- Strobed pairs that leave the core out of reset. -/
def WellFormed (words : List (BitVec 32)) : Prop :=
  (∀ w ∈ words, w.getLsbD 31 = false) ∧ InPairs words

/-- Pairs after pairs; the induction takes two words at a time. -/
theorem InPairs.append {words : List (BitVec 32)} :
    ∀ {words' : List (BitVec 32)}, InPairs words → InPairs words' → InPairs (words ++ words') := by
  induction words using InPairs.induct with
  | case1 =>
      intro words' _ h'
      exact h'
  | case2 w =>
      intro words' h _
      exact h.elim
  | case3 low high words ih =>
      intro words' h h'
      exact ⟨h.1, ih h.2 h'⟩

/-- Well-formed words after well-formed words. -/
theorem WellFormed.append {words words' : List (BitVec 32)} (h : WellFormed words)
    (h' : WellFormed words') : WellFormed (words ++ words') := by
  constructor
  · intro w hw
    rcases List.mem_append.mp hw with hw | hw
    · exact h.1 w hw
    · exact h'.1 w hw
  · exact h.2.append h'.2

/-- The two words of a strobed command differ in the strobe alone. -/
theorem strobed_inPairs (w : BitVec 32) : InPairs (strobed w) := by
  refine ⟨⟨strobeBit_strobe 0#1 w, strobeBit_strobe 1#1 w, fun i hi => ?_⟩, trivial⟩
  have hout : i < PdhCmdT.strobe.lo ∨ PdhCmdT.strobe.lo + PdhCmdT.strobe.len ≤ i := by
    change i < 30 ∨ 30 + 1 ≤ i
    omega
  rw [BitField.getLsbD_set_of_disjoint hout, BitField.getLsbD_set_of_disjoint hout]

/-- A strobed command is well formed if and only if the command does not reset. -/
theorem strobed_wellFormed_iff (w : BitVec 32) : WellFormed (strobed w) ↔ rstBit w = false := by
  constructor
  · intro h
    have hlow := h.1 (PdhCmdT.strobe.set 0#1 w) List.mem_cons_self
    rwa [← rstBit_strobe 0#1 w]
  · intro h
    refine ⟨fun word hword => ?_, strobed_inPairs w⟩
    rcases List.mem_pair.mp hword with rfl | rfl
    · exact (rstBit_strobe 0#1 w).trans h
    · exact (rstBit_strobe 1#1 w).trans h

/-! ## Open files -/

/-- The streams that are open after a call, given those that were open before. -/
def openAfterCall : (c : Call) → c.Response → List String → List String
  | .fopen path, opened, files => bif opened then path :: files else files
  | .fclose path, _, files => files.erase path
  | _, _, files => files

/-- The streams that are open after a trace. -/
def openAfter (files : List String) (tr : Trace) : List String :=
  tr.foldl (fun files e => openAfterCall e.1 e.2 files) files

/-- The files of a trace in two parts. -/
theorem openAfter_append (files : List String) (tr tr' : Trace) :
    openAfter files (tr ++ tr') = openAfter (openAfter files tr) tr' :=
  List.foldl_append

/-- Every file that is opened is closed. -/
def Tidy (tr : Trace) : Prop :=
  ∀ files, openAfter files tr = files

/-- Tidiness is kept by concatenation. -/
theorem closed_tidy : Closed Tidy where
  nil := fun _ => rfl
  append h h' := fun files => by rw [openAfter_append, h, h']

/-! ## Orderly traces -/

/-- The words of a trace are well formed, and every file it opens is closed. -/
structure Orderly (tr : Trace) : Prop where
  words : WellFormed (shown Call.sent tr)
  files : Tidy tr

/-- So is the form of the words. -/
theorem closed_wellFormed : Closed fun tr : Trace => WellFormed (shown Call.sent tr) where
  nil := ⟨fun _ hw => absurd hw List.not_mem_nil, trivial⟩
  append h h' := by
    rw [shown, List.flatMap_append]
    exact h.append h'

/-- And so are both together. -/
theorem closed_orderly : Closed Orderly where
  nil := ⟨closed_wellFormed.nil, closed_tidy.nil⟩
  append h h' :=
    ⟨closed_wellFormed.append h.words h'.words, closed_tidy.append h.files h'.files⟩

/-! ## Replies -/

/-- A name of letters, digits and underscores that is none of the names in the head of a
reply. -/
def PlainName (s : String) : Prop :=
  s.toList ≠ [] ∧ (∀ c ∈ s.toList, c.isAlphanum ∨ c = '_') ∧ s ∉ ["type", "name", "status"]

instance (s : String) : Decidable (PlainName s) :=
  have : Decidable (∀ c ∈ s.toList, c.isAlphanum ∨ c = '_') := List.decidableBAll _ _
  inferInstanceAs (Decidable (_ ∧ _ ∧ _))

/-- All values of a reply have plain names. -/
def PlainReply {F : Type} (r : Reply F) : Prop :=
  ∀ o ∈ r.outputItems, PlainName o.name

section PlainReply

variable {F : Type} {r : Reply F}

@[simp]
theorem plainReply_nil (code : ℕ) : PlainReply (⟨code, []⟩ : Reply F) :=
  fun _ h => absurd h List.not_mem_nil

/-- A value that is pushed needs a plain name. -/
@[simp]
theorem plainReply_pushCtxCb (data : OutputData F) (name : String) :
    PlainReply (r.pushCtxCb data name) ↔ PlainReply r ∧ PlainName name := by
  simp only [PlainReply, Reply.pushCtxCb, List.forall_mem_append, List.forall_mem_singleton]

/-- A check of a callback pushes nothing. -/
@[simp]
theorem plainReply_validate {α : Type} [DecidableEq α] (cb expected : α) (failCode : ℕ) :
    PlainReply (r.validate cb expected failCode) ↔ PlainReply r :=
  Iff.rfl

@[simp]
theorem plainReply_validateCmd (cb cmd : BitVec 32) :
    PlainReply (r.validateCmd cb cmd) ↔ PlainReply r :=
  Iff.rfl

end PlainReply

/-! ## Calls -/

section Rules

variable {α : Type}

/-- A routine with orderly traces. -/
abbrev Behaves (p : Routine α) (Q : α → Prop) : Prop :=
  Spec p Orderly Q

/-- A value that is returned at once. -/
theorem behaves_pure {a : α} {Q : α → Prop} (h : Q a) : Behaves (pure a) Q :=
  Spec.pure closed_orderly h

/-- One routine after another. -/
theorem behaves_bind {β : Type} {p : Routine α} {f : α → Routine β} {Q : α → Prop}
    {S : β → Prop} (hp : Behaves p Q) (hf : ∀ a, Q a → Behaves (f a) S) :
    Behaves (p >>= f) S :=
  Spec.bind closed_orderly hp hf

/-- A call that neither sends a word nor opens or closes a file. -/
theorem behaves_call {c : Call} (hsent : c.sent = [])
    (hfiles : ∀ r files, openAfterCall c r files = files) : Behaves c.run fun _ => True :=
  Spec.op fun r =>
    { words := by
        rw [shown, List.flatMap_singleton, hsent]
        exact closed_wellFormed.nil
      files := hfiles r }

/-- A pair of words, and what follows. -/
theorem behaves_pair {low high : BitVec 32} (h : WellFormed [low, high]) {f : Unit → Routine α}
    {Q : α → Prop} (hf : ∀ u, Behaves (f u) Q) :
    Behaves ((Call.pdhSendCmd low).run >>= fun _ => (Call.pdhSendCmd high).run >>= f) Q := by
  intro tr a hrun
  rcases performs_bind.mp hrun with ⟨tr₁, _, tr₂, h₁, h₂, rfl⟩
  rcases performs_bind.mp h₂ with ⟨tr₃, u, tr₄, h₃, h₄, rfl⟩
  have h₁ := performs_op.mp h₁
  have h₃ := performs_op.mp h₃
  subst h₁
  subst h₃
  have hrest := hf u tr₄ a h₄
  have hpair : Orderly ([⟨.pdhSendCmd low, ()⟩] ++ [⟨.pdhSendCmd high, u⟩]) := ⟨h, fun _ => rfl⟩
  rw [← List.append_assoc]
  exact ⟨closed_orderly.append hpair hrest.1, hrest.2⟩

/-- A strobed command that does not reset. -/
theorem behaves_strobe {cmd : BitVec 32} (h : rstBit cmd = false) :
    Behaves (pdhStrobeCmd cmd) fun _ => True :=
  behaves_pair ((strobed_wellFormed_iff cmd).mpr h) fun _ => behaves_pure trivial

/-- `pdh_execute_cmd` strobes the command and reads the callback. -/
theorem pdhExecuteCmd_eq (cmd : BitVec 32) :
    pdhExecuteCmd cmd = pdhStrobeCmd cmd >>= fun _ => Call.pdhGetCallback.run :=
  rfl

/-- A command that does not reset, with its answer. -/
theorem behaves_execute {cmd : BitVec 32} (h : rstBit cmd = false) :
    Behaves (pdhExecuteCmd cmd) fun _ => True := by
  rw [pdhExecuteCmd_eq]
  exact behaves_bind (behaves_strobe h) fun _ _ => behaves_call rfl fun _ _ => rfl

/-- A command whose answer is only looked at. -/
theorem behaves_execute_pure {cmd : BitVec 32} (h : rstBit cmd = false) {f : BitVec 32 → α}
    {Q : α → Prop} (hf : ∀ cb, Q (f cb)) :
    Behaves (pdhExecuteCmd cmd >>= fun cb => pure (f cb)) Q :=
  behaves_bind (behaves_execute h) fun cb _ => behaves_pure (hf cb)

/-- A file that is closed after it was used. -/
theorem behaves_file {path : String} {body : Routine Unit} {rest failed : Routine α}
    {Q : α → Prop} (hbody : Behaves body fun _ => True) (hrest : Behaves rest Q)
    (hfailed : Behaves failed Q) :
    Behaves ((Call.fopen path).run >>= fun opened =>
      if opened then body >>= fun _ => (Call.fclose path).run >>= fun _ => rest else failed) Q := by
  intro tr a hrun
  rcases performs_bind.mp hrun with ⟨tr₁, opened, tr₂, h₁, h₂, rfl⟩
  have h₁ := performs_op.mp h₁
  subst h₁
  cases opened with
  | false =>
      have hlast := hfailed tr₂ a h₂
      exact ⟨⟨hlast.1.words, hlast.1.files⟩, hlast.2⟩
  | true =>
      rcases performs_bind.mp h₂ with ⟨tr₃, _, tr₄, h₃, h₄, rfl⟩
      rcases performs_bind.mp h₄ with ⟨tr₅, u, tr₆, h₅, h₆, rfl⟩
      have h₅ := performs_op.mp h₅
      subst h₅
      have hused := (hbody tr₃ _ h₃).1
      have hlast := hrest tr₆ a h₆
      refine ⟨⟨?_, fun files => ?_⟩, hlast.2⟩
      · have hwords := closed_wellFormed.append hused.words hlast.1.words
        simpa [shown, List.flatMap_append, Call.sent] using hwords
      have hopen := hused.files (path :: files)
      have hclosed : openAfter files [⟨.fopen path, true⟩] = path :: files := rfl
      rw [openAfter_append, hclosed, openAfter_append, hopen, openAfter_append]
      have herased : openAfter (path :: files) [⟨.fclose path, u⟩] = files :=
        List.erase_cons_head path files
      rw [herased, hlast.1.files]

end Rules

/-! ## Properties of all words -/

/-- Every word of the trace has the property. -/
def OnlySends (P : BitVec 32 → Prop) (tr : Trace) : Prop :=
  ∀ w ∈ shown Call.sent tr, P w

section OnlySends

variable {α β : Type} {P : BitVec 32 → Prop}

/-- A property of all words is kept by concatenation. -/
theorem closed_onlySends : Closed (OnlySends P) where
  nil := fun _ hw => absurd hw List.not_mem_nil
  append h h' := by
    intro w hw
    rw [shown, List.flatMap_append] at hw
    rcases List.mem_append.mp hw with hw | hw
    · exact h w hw
    · exact h' w hw

/-- A call that sends nothing. -/
theorem onlySends_call {c : Call} (h : c.sent = []) :
    Spec c.run (OnlySends P) fun _ => True := by
  refine Spec.op fun _ w hw => ?_
  rw [shown, List.flatMap_singleton, h] at hw
  exact absurd hw List.not_mem_nil

/-- A single word. -/
theorem onlySends_send {raw : BitVec 32} (h : P raw) :
    Spec (Call.pdhSendCmd raw).run (OnlySends P) fun _ => True := by
  refine Spec.op fun _ w hw => ?_
  rw [shown, List.flatMap_singleton] at hw
  rwa [List.mem_singleton.mp hw]

theorem onlySends_pure (a : α) : Spec (pure a : Routine α) (OnlySends P) fun _ => True :=
  Spec.pure closed_onlySends trivial

theorem onlySends_bind {p : Routine α} {f : α → Routine β}
    (hp : Spec p (OnlySends P) fun _ => True) (hf : ∀ a, Spec (f a) (OnlySends P) fun _ => True) :
    Spec (p >>= f) (OnlySends P) fun _ => True :=
  Spec.bind closed_onlySends hp fun a _ => hf a

/-- A strobed command, at both levels of the strobe. -/
theorem onlySends_strobe {cmd : BitVec 32} (h : ∀ v, P (PdhCmdT.strobe.set v cmd)) :
    Spec (pdhStrobeCmd cmd) (OnlySends P) fun _ => True :=
  onlySends_bind (onlySends_send (h _)) fun _ => onlySends_send (h _)

/-- A strobed command, with its answer. -/
theorem onlySends_execute {cmd : BitVec 32} (h : ∀ v, P (PdhCmdT.strobe.set v cmd)) :
    Spec (pdhExecuteCmd cmd) (OnlySends P) fun _ => True := by
  rw [pdhExecuteCmd_eq]
  exact onlySends_bind (onlySends_strobe h) fun _ => onlySends_call rfl

end OnlySends

/-! ## The words of the handlers -/

/-- A register read does not reset. -/
theorem rstBit_checkSignedWord (sel : BitVec 5) : rstBit (checkSignedWord sel) = false := by
  rw [checkSignedWord, rstBit_set (Nat.le_of_ble_eq_true rfl), rstBit_cmdWord]

/-- A write of a converter does not reset. -/
theorem rstBit_setDacWord (sel : BitVec 1) (code : BitVec 14) :
    rstBit (setDacWord sel code) = false := by
  rw [setDacWord, rstBit_set (Nat.le_of_ble_eq_true rfl), rstBit_set (Nat.le_of_ble_eq_true rfl),
    rstBit_cmdWord]

/-- A write of the oscillator does not reset. -/
theorem rstBit_setNcoWord (sel : NcoCoeffSelE) (payload : BitVec 16) :
    rstBit (setNcoWord sel payload) = false := by
  rw [setNcoWord, rstBit_set (Nat.le_of_ble_eq_true rfl), rstBit_set (Nat.le_of_ble_eq_true rfl),
    rstBit_cmdWord]

/-- A setting of the demodulator does not reset. -/
theorem rstBit_configDemodWord (refSel : BitVec 1) (inSel : BitVec 3) (lpfAlpha : BitVec 4) :
    rstBit (configDemodWord refSel inSel lpfAlpha) = false := by
  rw [configDemodWord, rstBit_set (Nat.le_of_ble_eq_true rfl),
    rstBit_set (Nat.le_of_ble_eq_true rfl), rstBit_set (Nat.le_of_ble_eq_true rfl),
    rstBit_cmdWord]

/-- A frame request does not reset. -/
theorem rstBit_getFrameWord (decimationCode frameCode : BitVec 32) :
    rstBit (getFrameWord decimationCode frameCode) = false := by
  rw [getFrameWord, rstBit_set (Nat.le_of_ble_eq_true rfl),
    rstBit_set (Nat.le_of_ble_eq_true rfl), rstBit_cmdWord]

/-- The reset bit of a routing command is the one of the word that its fields were assigned
to. -/
theorem rstBit_configIoWord (dac1 dac2 pid : BitVec 3) (cmd : BitVec 32) :
    rstBit (configIoWord dac1 dac2 pid cmd) = cmd.getLsbD 31 := by
  rw [configIoWord, rstBit_set (Nat.le_of_ble_eq_true rfl),
    rstBit_set (Nat.le_of_ble_eq_true rfl), rstBit_set (Nat.le_of_ble_eq_true rfl)]
  exact BitField.getLsbD_set_of_disjoint (f := PdhCmdT.cmd) (.inr (Nat.le_succ 30)) _ cmd

/-- The command of one coefficient of the rotation. -/
def rotWord (select : BitVec 1) (payload : BitVec 16) : BitVec 32 :=
  PdhCmdT.rotSelect.set select (PdhCmdT.rotPayload.set payload (cmdWord .setRotCoeffs))

/-- A coefficient of the rotation does not reset. -/
theorem rstBit_rotWord (select : BitVec 1) (payload : BitVec 16) :
    rstBit (rotWord select payload) = false := by
  rw [rotWord, rstBit_set (Nat.le_of_ble_eq_true rfl), rstBit_set (Nat.le_of_ble_eq_true rfl),
    rstBit_cmdWord]

/-- The handler builds the words of the rotation with their strobe. -/
theorem setRotWord_wellFormed (select : BitVec 1) (payload : BitVec 16) :
    WellFormed [setRotWord 0#1 select payload, setRotWord 1#1 select payload] :=
  (strobed_wellFormed_iff (rotWord select payload)).mpr (rstBit_rotWord select payload)

/-! ## The handlers -/

section Handlers

/-- `cmd_set_led` makes at most one command. -/
theorem cmdSetLed_spec {F : Type} (ctx : CmdCtx F) : Behaves (cmdSetLed ctx) PlainReply := by
  dsimp only [cmdSetLed]
  split_ifs
  · exact behaves_pure (plainReply_nil _)
  · refine behaves_execute_pure ?_ fun cb => ?_
    · rw [rstBit_set (Nat.le_of_ble_eq_true rfl), rstBit_cmdWord]
    · simp only [plainReply_validateCmd, plainReply_validate, plainReply_pushCtxCb,
        plainReply_nil]
      decide

section SinglePrecision

variable {F : Type} [SinglePrecision F] (ctx : CmdCtx F)

/-- A signed register of the controller is one command and one value. -/
theorem setPidInt16_spec (sel : PidCoeffSelE) (value : BitVec 16) (scale : ℚ) {name : String}
    (hname : PlainName name) (fail : SetPidE) {r : Reply F} (hr : PlainReply r) :
    Behaves (setPidInt16 sel value scale name fail r) PlainReply :=
  behaves_execute_pure (rstBit_setPidWord _ _) fun _ =>
    (plainReply_pushCtxCb _ _).mpr ⟨hr, hname⟩

omit [SinglePrecision F] in
/-- So is an unsigned one. -/
theorem setPidUint_spec (sel : PidCoeffSelE) (value : BitVec 32) {name : String}
    (hname : PlainName name) (fail : SetPidE) {r : Reply F} (hr : PlainReply r) :
    Behaves (setPidUint sel value name fail r) PlainReply :=
  behaves_execute_pure (rstBit_setPidWord _ _) fun _ =>
    (plainReply_pushCtxCb _ _).mpr ⟨hr, hname⟩

/-- `cmd_set_pid` writes its eleven registers one after the other. -/
theorem cmdSetPid_spec : Behaves (cmdSetPid ctx) PlainReply := by
  refine behaves_bind (setPidInt16_spec _ _ _ (by decide) _ (plainReply_nil _)) fun _ h => ?_
  refine behaves_bind (setPidInt16_spec _ _ _ (by decide) _ h) fun _ h => ?_
  refine behaves_bind (setPidInt16_spec _ _ _ (by decide) _ h) fun _ h => ?_
  refine behaves_bind (setPidUint_spec _ _ (by decide) _ h) fun _ h => ?_
  refine behaves_bind (setPidInt16_spec _ _ _ (by decide) _ h) fun _ h => ?_
  refine behaves_bind (setPidUint_spec _ _ (by decide) _ h) fun _ h => ?_
  refine behaves_bind (setPidUint_spec _ _ (by decide) _ h) fun _ h => ?_
  refine behaves_bind (setPidUint_spec _ _ (by decide) _ h) fun _ h => ?_
  refine behaves_bind (setPidInt16_spec _ _ _ (by decide) _ h) fun _ h => ?_
  refine behaves_bind (setPidInt16_spec _ _ _ (by decide) _ h) fun _ h => ?_
  exact setPidInt16_spec _ _ _ (by decide) _ h

omit [SinglePrecision F] in
/-- A filter register is one command. -/
theorem setFirReg_spec (sel : FirUpdateSelE) (value mask : BitVec 32) (fail : SetFirE)
    {r : Reply F} (hr : PlainReply r) :
    Behaves (setFirReg sel value mask fail r) fun x => PlainReply x.2 :=
  behaves_execute_pure (rstBit_setFirWord _ _) fun _ => hr

/-- Every coefficient is an address and a value; the induction is on how many are left. -/
theorem loadCoeffs_spec {r : Reply F} (hr : PlainReply r) (i n : ℕ) :
    Behaves (loadCoeffs ctx r i n) PlainReply := by
  induction n generalizing r i with
  | zero => exact behaves_pure hr
  | succ n ih =>
      refine behaves_bind (setFirReg_spec _ _ _ _ hr) fun _ h => ?_
      refine behaves_bind (setFirReg_spec _ _ _ _ h) fun _ h => ?_
      exact ih h _

/-- `cmd_set_fir`, rejected or not. -/
theorem cmdSetFir_spec : Behaves (cmdSetFir ctx) PlainReply := by
  dsimp only [cmdSetFir]
  split_ifs
  · exact behaves_pure (plainReply_nil _)
  · have hpush : ∀ {r : Reply F} (echo : BitVec 32) {name : String}, PlainName name →
        PlainReply r → PlainReply (r.pushCtxCb (.uint echo) name) :=
      fun _ _ hname hr => (plainReply_pushCtxCb _ _).mpr ⟨hr, hname⟩
    refine behaves_bind (setFirReg_spec _ _ _ _ (plainReply_nil _)) fun x h => ?_
    refine behaves_bind (setFirReg_spec _ _ _ _ (hpush x.1 (by decide) h)) fun y h => ?_
    refine behaves_bind (loadCoeffs_spec ctx (hpush y.1 (by decide) h) _ _) fun _ h => ?_
    refine behaves_bind (setFirReg_spec _ _ _ _ h) fun z h => ?_
    refine behaves_bind (setFirReg_spec _ _ _ _ (hpush z.1 (by decide) h)) fun _ h => ?_
    exact behaves_pure (hpush _ (by decide) h)

end SinglePrecision

/-! ### The frame -/

section Frame

variable {F : Type}

/-- Every entry of a frame is read and written to the log. -/
theorem dumpFrame_spec (frameCode offset : BitVec 32) (n : ℕ) :
    Behaves (dumpFrame frameCode offset n) fun _ => True := by
  induction n generalizing offset with
  | zero => exact behaves_pure trivial
  | succ n ih =>
      refine behaves_bind (behaves_call rfl fun _ _ => rfl) fun _ _ => ?_
      refine behaves_bind (behaves_call rfl fun _ _ => rfl) fun _ _ => ?_
      exact ih _

/-- The reply to a frame request before its own code is pushed. -/
theorem getFrameReply_plain (decimationCode frameCode cb : BitVec 32) :
    PlainReply (getFrameReply decimationCode frameCode cb : Reply F) := by
  simp only [getFrameReply, plainReply_validateCmd, plainReply_validate, plainReply_pushCtxCb,
    plainReply_nil]
  decide

/-- What `cmd_get_frame` does before it opens the log. -/
def requestFrame (decimationCode frameCode : BitVec 32) : Routine (BitVec 32) := do
  Call.uioAckIrq.run
  pdhStrobeCmd (cmdWord .idle)
  pdhStrobeCmd (getFrameWord decimationCode frameCode)
  let sel ← (Call.select (330#32 + 140#32 * decimationCode)).run
  let cb ← Call.pdhGetCallback.run
  if 0 < sel then
    Call.uioWaitIrq.run
    Call.uioAckIrq.run
  return cb

/-- Before the log is opened, `cmd_get_frame` makes two commands. -/
theorem requestFrame_spec (decimationCode frameCode : BitVec 32) :
    Behaves (requestFrame decimationCode frameCode) fun _ => True := by
  refine behaves_bind (behaves_call rfl fun _ _ => rfl) fun _ _ => ?_
  refine behaves_bind (behaves_strobe (rstBit_cmdWord _)) fun _ _ => ?_
  refine behaves_bind (behaves_strobe (rstBit_getFrameWord _ _)) fun _ _ => ?_
  refine behaves_bind (behaves_call rfl fun _ _ => rfl) fun sel _ => ?_
  refine behaves_bind (behaves_call rfl fun _ _ => rfl) fun cb _ => ?_
  dsimp only
  split_ifs
  · refine behaves_bind (behaves_call rfl fun _ _ => rfl) fun _ _ => ?_
    refine behaves_bind (behaves_call rfl fun _ _ => rfl) fun _ _ => ?_
    exact behaves_pure trivial
  · exact behaves_pure trivial

/-- The decimation of a frame request. -/
def decimationOf (ctx : CmdCtx F) : BitVec 32 :=
  if ctx.uintArgs 0 < 1#32 then 1#32 else ctx.uintArgs 0

/-- `cmd_get_frame` in two parts: the request, and the log. -/
theorem cmdGetFrame_eq [SinglePrecision F] (ctx : CmdCtx F) :
    cmdGetFrame ctx =
      requestFrame (decimationOf ctx) (ctx.uintArgs 1) >>= fun cb =>
        logFrame (ctx.uintArgs 1) (getFrameReply (decimationOf ctx) (ctx.uintArgs 1) cb) := by
  dsimp only [cmdGetFrame]
  rw [← decimationOf]
  simp only [requestFrame, bind_assoc]
  refine bind_congr fun _ => bind_congr fun _ => bind_congr fun _ => bind_congr fun sel => ?_
  refine bind_congr fun cb => ?_
  split_ifs
  · rfl
  · rfl

end Frame

/-! ### Single registers -/

section MixedPrecision

variable {F : Type}

/-- `cmd_get_adc` makes one command. -/
theorem cmdGetAdc_spec [MixedPrecision F] :
    Behaves (cmdGetAdc : Routine (Reply F)) PlainReply := by
  refine behaves_execute_pure (rstBit_cmdWord _) fun cb => ?_
  simp only [plainReply_validateCmd, plainReply_pushCtxCb, plainReply_nil]
  decide

/-- `cmd_check_signed` makes one command. -/
theorem cmdCheckSigned_spec (ctx : CmdCtx F) : Behaves (cmdCheckSigned ctx) PlainReply := by
  refine behaves_execute_pure (rstBit_checkSignedWord _) fun cb => ?_
  simp only [plainReply_validateCmd, plainReply_validate, plainReply_pushCtxCb, plainReply_nil]
  decide

variable [MixedPrecision F] (ctx : CmdCtx F)

/-- `cmd_set_dac` makes one command. -/
theorem cmdSetDac_spec : Behaves (cmdSetDac ctx) PlainReply := by
  refine behaves_execute_pure (rstBit_setDacWord _ _) fun cb => ?_
  simp only [plainReply_validateCmd, plainReply_validate, plainReply_pushCtxCb, plainReply_nil]
  decide

/-- `cmd_set_rot` sends two pairs, reads one callback and makes one command. -/
theorem cmdSetRot_spec : Behaves (cmdSetRot ctx) PlainReply := by
  refine behaves_pair (setRotWord_wellFormed _ _) fun _ => ?_
  refine behaves_pair (setRotWord_wellFormed _ _) fun _ => ?_
  refine behaves_bind (behaves_call rfl fun _ _ => rfl) fun _ _ => ?_
  refine behaves_execute_pure (rstBit_cmdWord _) fun cb => ?_
  simp only [plainReply_validate, plainReply_pushCtxCb, plainReply_nil]
  decide

/-- The four values that `cmd_set_nco` computes have plain names. -/
theorem pushNcoValues_plain {r : Reply F} (hr : PlainReply r) (freq shiftDeg : F) (q : Quadrant)
    (echoStride echoShift : BitVec 32) :
    PlainReply (r.pushNcoValues freq shiftDeg q echoStride echoShift) := by
  simp only [Reply.pushNcoValues, plainReply_pushCtxCb, hr, true_and]
  decide

/-- `cmd_set_nco` makes six commands, or none. -/
theorem cmdSetNco_spec : Behaves (cmdSetNco ctx) PlainReply := by
  dsimp only [cmdSetNco]
  split_ifs
  · exact behaves_pure (plainReply_nil _)
  · have hword := rstBit_setNcoWord
    refine behaves_bind (behaves_execute (hword _ _)) fun _ _ => ?_
    refine behaves_bind (behaves_execute (hword _ _)) fun _ _ => ?_
    refine behaves_bind (behaves_execute (hword _ _)) fun _ _ => ?_
    refine behaves_bind (behaves_execute (hword _ _)) fun _ _ => ?_
    refine behaves_bind (behaves_execute (hword _ _)) fun _ _ => ?_
    refine behaves_execute_pure (hword _ _) fun cb => ?_
    refine pushNcoValues_plain ?_ _ _ _ _ _
    simp only [plainReply_validate, plainReply_pushCtxCb, plainReply_nil]
    decide

omit [MixedPrecision F] in
/-- `cmd_config_demod` makes at most one command. -/
theorem cmdConfigDemod_spec : Behaves (cmdConfigDemod ctx) PlainReply := by
  dsimp only [cmdConfigDemod]
  split_ifs
  · exact behaves_pure (plainReply_nil _)
  · exact behaves_pure (plainReply_nil _)
  · refine behaves_execute_pure (rstBit_configDemodWord _ _ _) fun cb => ?_
    simp only [plainReply_validateCmd, plainReply_validate, plainReply_pushCtxCb, plainReply_nil]
    decide

/-- A signal is read by one command. -/
theorem readSignal_spec (sel : CsSelE) :
    Behaves (readSignal sel : Routine F) fun _ => True :=
  behaves_execute_pure (rstBit_checkSignedWord _) fun _ => trivial

/-- A step of a ramp reads one signal or four, and writes one line. -/
theorem logStep_spec (demodMode : BitVec 32) (v : F) :
    Behaves (logStep demodMode v) fun _ => True := by
  dsimp only [logStep]
  split_ifs
  · refine behaves_bind (readSignal_spec _) fun _ _ => ?_
    exact behaves_call rfl fun _ _ => rfl
  · refine behaves_bind (readSignal_spec _) fun _ _ => ?_
    refine behaves_bind (readSignal_spec _) fun _ _ => ?_
    refine behaves_bind (readSignal_spec _) fun _ _ => ?_
    refine behaves_bind (readSignal_spec _) fun _ _ => ?_
    exact behaves_call rfl fun _ _ => rfl

/-- The steps of a ramp; the induction is on how many are left. -/
theorem rampPoints_spec (i n : ℕ) : Behaves (rampPoints ctx i n) fun _ => True := by
  induction n generalizing i with
  | zero => exact behaves_pure trivial
  | succ n ih =>
      refine behaves_bind (behaves_execute (rstBit_setDacWord _ _)) fun _ _ => ?_
      have hrest : Behaves (do
          logStep (ctx.uintArgs 3) (rampVoltage ctx i)
          rampPoints ctx (i + 1) n) fun _ => True :=
        behaves_bind (logStep_spec _ _) fun _ _ => ih _
      split_ifs
      · exact behaves_bind (behaves_call rfl fun _ _ => rfl) fun _ _ => hrest
      · exact hrest

/-- `cmd_sweep_ramp` closes its log, and then restores the routing. -/
theorem cmdSweepRamp_spec : Behaves (cmdSweepRamp ctx) PlainReply := by
  have hio : ∀ dac1 dac2 pid, rstBit (configIoWord dac1 dac2 pid 0#32) = false :=
    fun dac1 dac2 pid => rstBit_configIoWord dac1 dac2 pid 0#32
  dsimp only [cmdSweepRamp]
  split_ifs
  · exact behaves_pure (plainReply_nil _)
  · refine behaves_bind (behaves_execute (rstBit_checkSignedWord _)) fun ioCb _ => ?_
    refine behaves_bind (behaves_execute (hio _ _ _)) fun _ _ => ?_
    refine behaves_file (rampPoints_spec ctx _ _) ?_ (behaves_pure (plainReply_nil _))
    refine behaves_execute_pure (hio _ _ _) fun cb => ?_
    exact (plainReply_pushCtxCb _ _).mpr ⟨plainReply_nil _, by decide⟩

section Ramp

variable {P : BitVec 32 → Prop} (hcheck : ∀ v sel, P (PdhCmdT.strobe.set v (checkSignedWord sel)))
  (hdac : ∀ v sel code, P (PdhCmdT.strobe.set v (setDacWord sel code)))

include hcheck hdac

/-- The steps of a ramp read registers and write a converter. -/
theorem onlySends_rampPoints (i n : ℕ) :
    Spec (rampPoints ctx i n) (OnlySends P) fun _ => True := by
  have hread : ∀ sel, Spec (readSignal sel : Routine F) (OnlySends P) fun _ => True :=
    fun _ => onlySends_bind (onlySends_execute fun v => hcheck v _) fun _ => onlySends_pure _
  have hlog : ∀ demodMode (v : F), Spec (logStep demodMode v) (OnlySends P) fun _ => True := by
    intro demodMode v
    dsimp only [logStep]
    split_ifs
    · exact onlySends_bind (hread _) fun _ => onlySends_call rfl
    · refine onlySends_bind (hread _) fun _ => ?_
      refine onlySends_bind (hread _) fun _ => ?_
      refine onlySends_bind (hread _) fun _ => ?_
      exact onlySends_bind (hread _) fun _ => onlySends_call rfl
  induction n generalizing i with
  | zero => exact onlySends_pure _
  | succ n ih =>
      refine onlySends_bind (onlySends_execute fun v => hdac v _ _) fun _ => ?_
      split_ifs
      · refine onlySends_bind (onlySends_call rfl) fun _ => ?_
        exact onlySends_bind (hlog _ _) fun _ => ih _
      · exact onlySends_bind (hlog _ _) fun _ => ih _

/-- The words of the ramp: register reads, writes of the converter, and the routing. -/
theorem onlySends_sweepRamp
    (hio : ∀ v dac1 dac2 pid, P (PdhCmdT.strobe.set v (configIoWord dac1 dac2 pid 0#32))) :
    Spec (cmdSweepRamp ctx) (OnlySends P) fun _ => True := by
  dsimp only [cmdSweepRamp]
  split_ifs
  · exact onlySends_pure _
  · refine onlySends_bind (onlySends_execute fun v => hcheck v _) fun _ => ?_
    refine onlySends_bind (onlySends_execute fun v => hio v _ _ _) fun _ => ?_
    refine onlySends_bind (onlySends_call rfl) fun opened => ?_
    split_ifs
    · refine onlySends_bind (onlySends_rampPoints ctx hcheck hdac _ _) fun _ => ?_
      refine onlySends_bind (onlySends_call rfl) fun _ => ?_
      exact onlySends_bind (onlySends_execute fun v => hio v _ _ _) fun _ => onlySends_pure _
    · exact onlySends_pure _

end Ramp

end MixedPrecision

/-! ### The remaining handlers -/

section Remaining

variable {F : Type}

/-- A routing request makes one command. -/
theorem cmdConfigIo_spec {T : Trace → Prop} (hT : Closed T) (stack : BitVec 32) (ctx : CmdCtx F)
    (hexecute : ioArgsCode ctx = .ok → ∀ dac1 dac2 pid,
      Spec (pdhExecuteCmd (configIoWord dac1 dac2 pid stack)) T fun _ => True) :
    Spec (cmdConfigIo stack ctx) T PlainReply := by
  dsimp only [cmdConfigIo]
  split_ifs with hargs
  · exact Spec.pure hT (plainReply_nil _)
  · refine Spec.bind hT (hexecute (not_not.mp hargs) _ _ _) fun cb _ => Spec.pure hT ?_
    simp only [plainReply_validateCmd, plainReply_validate, plainReply_pushCtxCb, plainReply_nil]
    decide

/-- The word of a routing request that is accepted. -/
theorem cmdConfigIo_emits (stack : BitVec 32) {ctx : CmdCtx F} (hargs : ioArgsCode ctx = .ok) :
    Emits Call.sent (cmdConfigIo stack ctx) (strobed (configIoWord ((ctx.uintArgs 0).setWidth 3)
      ((ctx.uintArgs 1).setWidth 3) ((ctx.uintArgs 2).setWidth 3) stack)) := by
  dsimp only [cmdConfigIo]
  rw [if_neg (not_not.mpr hargs)]
  exact .bind_pure (pdhExecuteCmd_emits _) _

theorem tidy_call {c : Call} (h : ∀ r files, openAfterCall c r files = files) :
    Spec c.run Tidy fun _ => True :=
  Spec.op h

/-- A command opens no file. -/
theorem tidy_execute (cmd : BitVec 32) : Spec (pdhExecuteCmd cmd) Tidy fun _ => True :=
  Spec.bind closed_tidy (tidy_call fun _ _ => rfl) fun _ _ =>
    Spec.bind closed_tidy (tidy_call fun _ _ => rfl) fun _ _ => tidy_call fun _ _ => rfl

/-- `cmd_reset_fpga` opens no file; its words are not in pairs. -/
theorem cmdResetFpga_spec : Spec (cmdResetFpga : Routine (Reply F)) Tidy PlainReply := by
  refine Spec.bind closed_tidy (tidy_call fun _ _ => rfl) fun _ _ => ?_
  refine Spec.bind closed_tidy (tidy_call fun _ _ => rfl) fun _ _ => ?_
  refine Spec.bind closed_tidy (tidy_call fun _ _ => rfl) fun callback _ => ?_
  refine Spec.pure closed_tidy ?_
  exact (plainReply_pushCtxCb _ _).mpr ⟨plainReply_nil _, by decide⟩

/-- The log of a frame sends no word. -/
theorem logFrame_spec (frameCode : BitVec 32) {r : Reply F} (hr : PlainReply r) :
    Spec (logFrame frameCode r) (fun tr => WellFormed (shown Call.sent tr)) PlainReply := by
  have hcall : ∀ {c : Call}, c.sent = [] →
      Spec c.run (fun tr => WellFormed (shown Call.sent tr)) fun _ => True := by
    intro c hc
    refine Spec.op fun _ => ?_
    rw [shown, List.flatMap_singleton, hc]
    exact closed_wellFormed.nil
  refine Spec.bind closed_wellFormed (hcall rfl) fun opened _ => ?_
  have hreply : ∀ code, PlainReply (⟨code, r.outputItems ++
      [⟨"return_code", .uint (BitVec.ofNat 32 code)⟩]⟩ : Reply F) :=
    fun code => (plainReply_pushCtxCb (r := r) _ _).mpr ⟨hr, by decide⟩
  dsimp only
  generalize (if opened = true then r.returnCode else 1) = code
  split_ifs
  · have hdump := (dumpFrame_spec frameCode 0#32 (0x20000 / 8)).mono (fun _ h => h.words)
      fun _ h => h
    refine Spec.bind closed_wellFormed hdump fun _ _ => ?_
    refine Spec.bind closed_wellFormed (hcall rfl) fun _ _ => ?_
    exact Spec.pure closed_wellFormed (hreply _)
  · exact Spec.pure closed_wellFormed (hreply _)

/-- `cmd_get_frame` sends well-formed words. -/
theorem cmdGetFrame_spec [SinglePrecision F] (ctx : CmdCtx F) :
    Spec (cmdGetFrame ctx) (fun tr => WellFormed (shown Call.sent tr)) PlainReply := by
  rw [cmdGetFrame_eq]
  have hrequest := (requestFrame_spec (decimationOf ctx) (ctx.uintArgs 1)).mono
    (fun _ h => h.words) fun _ h => h
  exact Spec.bind closed_wellFormed hrequest fun cb _ =>
    logFrame_spec _ (getFrameReply_plain _ _ cb)

end Remaining

/-! ### All handlers -/

section All

variable {F : Type} [MixedPrecision F] (stack : BitVec 32) (ctx : CmdCtx F)

/-- The handlers besides those of reset and of the routing send well-formed words; those of
the routing do unless the stack says otherwise. -/
theorem words_spec {h : Handler} (hreset : h ≠ .resetFpga)
    (hstack : h = .configIo → ioArgsCode ctx = .ok → stack.getLsbD 31 = false) :
    Spec (h.run stack ctx) (fun tr => WellFormed (shown Call.sent tr)) PlainReply := by
  have hwords : ∀ {p : Routine (Reply F)}, Behaves p PlainReply →
      Spec p (fun tr => WellFormed (shown Call.sent tr)) PlainReply :=
    fun hp => hp.mono (fun _ h => h.words) fun _ h => h
  cases h with
  | setLed => exact hwords (cmdSetLed_spec ctx)
  | resetFpga => exact absurd rfl hreset
  | setDac => exact hwords (cmdSetDac_spec ctx)
  | getAdc => exact hwords cmdGetAdc_spec
  | checkSigned => exact hwords (cmdCheckSigned_spec ctx)
  | setRot => exact hwords (cmdSetRot_spec ctx)
  | getFrame => exact cmdGetFrame_spec ctx
  | testFrame => exact hwords (behaves_pure (plainReply_nil _))
  | setPid => exact hwords (cmdSetPid_spec ctx)
  | setFir => exact hwords (cmdSetFir_spec ctx)
  | setNco => exact hwords (cmdSetNco_spec ctx)
  | configIo =>
      refine hwords (cmdConfigIo_spec closed_orderly stack ctx fun hargs _ _ _ => ?_)
      exact behaves_execute ((rstBit_configIoWord _ _ _ _).trans (hstack rfl hargs))
  | configDemod => exact hwords (cmdConfigDemod_spec ctx)
  | sweepRamp => exact hwords (cmdSweepRamp_spec ctx)

/-- The handlers besides that of the frame close every file they open. -/
theorem files_spec {h : Handler} (hframe : h ≠ .getFrame) :
    Spec (h.run stack ctx) Tidy PlainReply := by
  have htidy : ∀ {p : Routine (Reply F)}, Behaves p PlainReply → Spec p Tidy PlainReply :=
    fun hp => hp.mono (fun _ h => h.files) fun _ h => h
  cases h with
  | setLed => exact htidy (cmdSetLed_spec ctx)
  | resetFpga => exact cmdResetFpga_spec
  | setDac => exact htidy (cmdSetDac_spec ctx)
  | getAdc => exact htidy cmdGetAdc_spec
  | checkSigned => exact htidy (cmdCheckSigned_spec ctx)
  | setRot => exact htidy (cmdSetRot_spec ctx)
  | getFrame => exact absurd rfl hframe
  | testFrame => exact htidy (behaves_pure (plainReply_nil _))
  | setPid => exact htidy (cmdSetPid_spec ctx)
  | setFir => exact htidy (cmdSetFir_spec ctx)
  | setNco => exact htidy (cmdSetNco_spec ctx)
  | configIo => exact cmdConfigIo_spec closed_tidy stack ctx fun _ _ _ _ => tidy_execute _
  | configDemod => exact htidy (cmdConfigDemod_spec ctx)
  | sweepRamp => exact htidy (cmdSweepRamp_spec ctx)

/-- Every handler names the values of its reply in the same way. -/
theorem reply_plain {h : Handler} {tr : Trace} {r : Reply F}
    (hrun : Performs (h.run stack ctx) tr r) : PlainReply r := by
  by_cases hframe : h = .getFrame
  · subst hframe
    exact (words_spec stack ctx (h := .getFrame) nofun nofun tr r hrun).2
  · exact (files_spec stack ctx hframe tr r hrun).2

/-- A handler other than that of reset sends pairs of words without the reset bit if and only
if, where it is the one of the routing and its arguments are in range, the top bit of the
stack word is clear. -/
theorem sends_wellFormed_iff (h : Handler) (hreset : h ≠ .resetFpga) (tr : Trace) (r : Reply F)
    (hrun : Performs (h.run stack ctx) tr r) :
    ((∀ w ∈ shown Call.sent tr, w.getLsbD 31 = false) ∧ InPairs (shown Call.sent tr)) ↔
      (h = .configIo → ioArgsCode ctx = .ok → stack.getLsbD 31 = false) := by
  constructor
  · intro hwords hio hargs
    subst hio
    have hsent : shown Call.sent tr = _ := cmdConfigIo_emits stack hargs tr r hrun
    rw [hsent] at hwords
    have hrst := (strobed_wellFormed_iff _).mp hwords
    rwa [rstBit_configIoWord] at hrst
  · intro hstack
    exact (words_spec stack ctx hreset hstack tr r hrun).1

end All

/-- The request that routes the first signal everywhere. -/
def firstSignalCtx : CmdCtx ℚ where
  floatArgs := fun _ => 0
  uintArgs := fun _ => 0#32
  numFloats := 0
  numFloats_le := Nat.zero_le 64

/-- The equivalence for a routing request on a stack whose top bit is set. -/
theorem sends_wellFormed_iff_firstSignal :
    ∃ (tr : Trace) (r : Reply ℚ),
      Performs (Handler.run 0x80000000#32 firstSignalCtx .configIo) tr r ∧
      (((∀ w ∈ shown Call.sent tr, w.getLsbD 31 = false) ∧ InPairs (shown Call.sent tr)) ↔
        (Handler.configIo = .configIo → ioArgsCode firstSignalCtx = .ok →
          (0x80000000#32).getLsbD 31 = false)) := by
  rcases exists_performs (fun c : Call => (default : c.Response))
    (Handler.run 0x80000000#32 firstSignalCtx .configIo) with ⟨tr, r, hrun⟩
  exact ⟨tr, r, hrun, sends_wellFormed_iff 0x80000000#32 firstSignalCtx .configIo (by decide) tr r
    hrun⟩

/-- There, both words of the routing request reset the core. -/
theorem firstSignal_resets :
    ∃ (tr : Trace) (r : Reply ℚ),
      Performs (Handler.run 0x80000000#32 firstSignalCtx .configIo) tr r ∧
      shown Call.sent tr = [0xB8000000#32, 0xF8000000#32] ∧
      ¬∀ w ∈ shown Call.sent tr, w.getLsbD 31 = false := by
  rcases exists_performs (fun c : Call => (default : c.Response))
    (Handler.run 0x80000000#32 firstSignalCtx .configIo) with ⟨tr, r, hrun⟩
  have hsent : shown Call.sent tr = _ := cmdConfigIo_emits 0x80000000#32 (by decide) tr r hrun
  have hwords : shown Call.sent tr = [0xB8000000#32, 0xF8000000#32] := hsent.trans (by decide)
  refine ⟨tr, r, hrun, hwords, fun h => ?_⟩
  have hbit := h 0xB8000000#32 (by rw [hwords]; exact List.mem_cons_self)
  exact absurd hbit (by decide)

end Handlers

/-! ## Requests -/

section Serve

variable {F : Type} [MixedPrecision F]

/-- The entry of the table that a request reaches: it has the name of the request, and the
request has the arguments that it requires. -/
def Dispatched (ctx : LoadedCtx F) (e : CmdEntry) : Prop :=
  findEntry ctx.name = some e ∧ e.check ctx = .ok

omit [MixedPrecision F] in
/-- A request reaches one entry at most. -/
theorem Dispatched.unique {ctx : LoadedCtx F} {e e' : CmdEntry} (h : Dispatched ctx e)
    (h' : Dispatched ctx e') : e = e' :=
  Option.some.inj (h.1.symm.trans h'.1)

variable {stack : BitVec 32} {inbuff : List Char} {tr : Trace} {reply : Option (List Char)}

/-- The handler runs, or the code that was passed in is left as it is. -/
theorem performs_dispatchCommand {ctx : LoadedCtx F} {code : ℕ} {x : DispatchE × Reply F}
    (hrun : Performs (dispatchCommand stack ctx code) tr x) :
    (∃ e, Dispatched ctx e ∧ Performs (e.func.run stack ctx.toCmdCtx) tr x.2) ∨
      ((∀ e, ¬Dispatched ctx e) ∧ tr = [] ∧ x.2 = ⟨code, []⟩) := by
  rw [dispatchCommand] at hrun
  cases hentry : findEntry ctx.name with
  | none =>
      rw [hentry] at hrun
      rcases performs_pure.mp hrun with ⟨rfl, rfl⟩
      refine .inr ⟨fun e he => ?_, rfl, rfl⟩
      exact absurd (hentry.symm.trans he.1) nofun
  | some e =>
      rw [hentry] at hrun
      dsimp only at hrun
      by_cases hcheck : e.check ctx = .ok
      · rw [if_pos hcheck] at hrun
        rcases performs_bind.mp hrun with ⟨tr₁, r, tr₂, h₁, h₂, rfl⟩
        rcases performs_pure.mp h₂ with ⟨rfl, rfl⟩
        rw [List.append_nil]
        exact .inl ⟨e, ⟨hentry, hcheck⟩, h₁⟩
      · rw [if_neg hcheck] at hrun
        rcases performs_pure.mp hrun with ⟨rfl, rfl⟩
        refine .inr ⟨fun e' he' => ?_, rfl, rfl⟩
        obtain rfl := Option.some.inj (hentry.symm.trans he'.1)
        exact hcheck he'.2

/-- A text without a command is not answered. -/
theorem performs_serve_none
    (hload : (loadContext (cString inbuff.dropLast) : Option (LoadedCtx F)) = none) :
    Performs (serve F stack inbuff) tr reply ↔ tr = [] ∧ reply = none := by
  rw [serve, hload]
  exact performs_pure

/-- A request reaches its handler, or it is answered with a status of 0 and no values. -/
theorem performs_serve_some {ctx : LoadedCtx F}
    (hload : loadContext (cString inbuff.dropLast) = some ctx)
    (hrun : Performs (serve F stack inbuff) tr reply) :
    (∃ e r, Dispatched ctx e ∧ Performs (e.func.run stack ctx.toCmdCtx) tr r ∧
        reply = sendResponse ctx.name r) ∨
      ((∀ e, ¬Dispatched ctx e) ∧ tr = [] ∧
        reply = sendResponse ctx.name (⟨0, []⟩ : Reply F)) := by
  rw [serve, hload] at hrun
  rcases performs_bind.mp hrun with ⟨tr₁, ⟨dispatch, r⟩, tr₂, h₁, h₂, rfl⟩
  rcases performs_pure.mp h₂ with ⟨rfl, hreply⟩
  rw [List.append_nil]
  rcases performs_dispatchCommand h₁ with ⟨e, he, hhandler⟩ | ⟨hnone, htr, hr⟩
  · exact .inl ⟨e, r, he, hhandler, hreply⟩
  · dsimp only at hr
    rw [hr] at hreply
    exact .inr ⟨hnone, htr, hreply⟩

end Serve

end Requests
end PoundDreverHall
