import PoundDreverHall.Requests.FrameTrace

/-!
# Requests - the files of the handlers

`cmd_get_frame` opens its log before it looks at the echoes of the request, and closes it
only if they are right.  A frame request whose echoes are wrong therefore leaves the log
open; every other request closes what it opens.

Main results:

- Theorem {lit}`performs_cmdGetFrame`: the trace of a frame request.
- Theorem {lit}`openAfter_request`: the files that are open after a request.
- Theorem {lit}`files_kept_iff`: when a run of requests leaves no file open.
-/

namespace PoundDreverHall
namespace Requests

open Device Device.Program Server

/-! ## Frame requests -/

/-- A call that is neither for a callback nor for a file. -/
def IsQuiet : Call → Prop
  | .pdhGetCallback => False
  | .fopen _ => False
  | .fclose _ => False
  | _ => True

/-- A trace of such calls. -/
def Quiet (tr : Trace) : Prop :=
  ∀ e ∈ tr, IsQuiet e.1

theorem closed_quiet : Closed Quiet where
  nil := fun _ he => absurd he List.not_mem_nil
  append h h' := List.forall_mem_append.mpr ⟨h, h'⟩

theorem Quiet.tidy {tr : Trace} (h : Quiet tr) : Tidy tr := by
  induction tr with
  | nil => exact fun _ => rfl
  | cons e tr ih =>
      intro files
      have hrest := ih (fun e he => h e (List.mem_cons_of_mem _ he)) files
      have hfirst := h e List.mem_cons_self
      rcases e with ⟨c, r⟩
      cases c with
      | pdhGetCallback => exact hfirst.elim
      | fopen path => exact hfirst.elim
      | fclose path => exact hfirst.elim
      | _ => exact hrest

theorem quiet_dumpFrame (frameCode offset : BitVec 32) (n : ℕ) :
    Spec (dumpFrame frameCode offset n) Quiet fun _ => True :=
  dumpFrame_rule closed_quiet (fun _ _ => List.forall_mem_singleton.mpr trivial)
    (fun _ => List.forall_mem_singleton.mpr trivial) frameCode offset n

theorem quiet_orderCalls {F : Type} (ctx : CmdCtx F) : Quiet (orderCalls ctx) := by
  intro e he
  rcases List.mem_cons.mp he with rfl | hsend
  · trivial
  · rcases List.mem_map.mp hsend with ⟨w, -, rfl⟩
    trivial

theorem quiet_drainCalls (sel : ℤ) : Quiet (drainCalls sel) := by
  rw [drainCalls]
  by_cases hsel : 0 < sel
  · rw [if_pos hsel]
    exact List.forall_mem_cons.mpr ⟨trivial, List.forall_mem_singleton.mpr trivial⟩
  · rw [if_neg hsel]
    exact closed_quiet.nil

/-! ## The echoes -/

theorem validateCb_eq_zero_iff {α : Type} [DecidableEq α] {cb expected : α} {successCode : ℕ}
    {failCode : ℕ} (hfail : failCode ≠ 0) :
    validateCb cb expected successCode failCode = 0 ↔ cb = expected ∧ successCode = 0 := by
  by_cases h : cb = expected
  · simp [validateCb, h]
  · simp [validateCb, h, hfail]

/-- A callback with the decimation, the frame code and the command of a frame request. -/
def EchoesFrame {F : Type} (ctx : CmdCtx F) (cb : BitVec 32) : Prop :=
  (PdhCallbackT.decimation.get cb).setWidth 32 = decimationOf ctx ∧
    (PdhCallbackT.frameCode.get cb).setWidth 32 = ctx.uintArgs 1 ∧
      PdhCallbackT.cmd.get cb = PdhCmdE.getFrame.code

instance {F : Type} (ctx : CmdCtx F) (cb : BitVec 32) : Decidable (EchoesFrame ctx cb) :=
  inferInstanceAs (Decidable (_ ∧ _ ∧ _))

theorem returnCode_getFrameReply {F : Type} (ctx : CmdCtx F) (cb : BitVec 32) :
    (getFrameReply (decimationOf ctx) (ctx.uintArgs 1) cb : Reply F).returnCode = 0 ↔
      EchoesFrame ctx cb := by
  have hcode : (getFrameReply (decimationOf ctx) (ctx.uintArgs 1) cb : Reply F).returnCode =
      validateCb (PdhCallbackT.cmd.get cb)
        (PdhCmdT.cmd.get (getFrameWord (decimationOf ctx) (ctx.uintArgs 1)))
        (validateCb ((PdhCallbackT.frameCode.get cb).setWidth 32) (ctx.uintArgs 1)
          (validateCb ((PdhCallbackT.decimation.get cb).setWidth 32) (decimationOf ctx) 0 2) 3) 1 :=
    rfl
  rw [hcode, validateCb_eq_zero_iff (by omega), validateCb_eq_zero_iff (by omega),
    validateCb_eq_zero_iff (by omega), cmd_getFrameWord, EchoesFrame]
  tauto

/-! ## The log -/

/-- A log is closed if it was opened for a reply that is not a failure. -/
theorem performs_logFrame {F : Type} {frameCode : BitVec 32} {r r' : Reply F} {tr : Trace}
    (hrun : Performs (logFrame frameCode r) tr r') :
    ∃ opened after, tr = ⟨.fopen "dma_log.csv", opened⟩ :: after ∧
      (((opened = true ∧ r.returnCode = 0) ∧
          ∃ dump u, Quiet dump ∧ after = dump ++ [⟨.fclose "dma_log.csv", u⟩]) ∨
        (¬(opened = true ∧ r.returnCode = 0) ∧ after = [])) := by
  rcases performs_bind.mp hrun with ⟨tr₁, opened, after, h₁, h₂, rfl⟩
  have h₁ := performs_op.mp h₁
  subst h₁
  refine ⟨opened, after, rfl, ?_⟩
  have hcode : (if opened = true then r.returnCode else 1) = 0 ↔
      opened = true ∧ r.returnCode = 0 := by
    by_cases hopened : opened = true
    · simp [hopened]
    · simp [hopened]
  dsimp only at h₂
  by_cases hlogged : opened = true ∧ r.returnCode = 0
  · rw [if_pos (hcode.mpr hlogged)] at h₂
    rcases performs_bind.mp h₂ with ⟨dump, _, tr₂, h₃, h₄, rfl⟩
    rcases performs_bind.mp h₄ with ⟨tr₃, u, tr₄, h₅, h₆, rfl⟩
    have h₅ := performs_op.mp h₅
    subst h₅
    rcases performs_pure.mp h₆ with ⟨rfl, -⟩
    exact .inl ⟨hlogged, dump, u, (quiet_dumpFrame _ _ _ dump _ h₃).1, rfl⟩
  · rw [if_neg (mt hcode.mp hlogged)] at h₂
    exact .inr ⟨hlogged, (performs_pure.mp h₂).1⟩

/-- The trace of a frame request: one callback, then the log, which is closed if it was opened
and the echoes are those of the request. -/
theorem performs_cmdGetFrame {F : Type} [SinglePrecision F] {ctx : CmdCtx F} {tr : Trace}
    {r : Reply F} (hrun : Performs (cmdGetFrame ctx) tr r) :
    ∃ before cb mid opened after,
      tr = before ++ ⟨.pdhGetCallback, cb⟩ :: mid ++ ⟨.fopen "dma_log.csv", opened⟩ :: after ∧
      Quiet before ∧ Quiet mid ∧
        (((opened = true ∧ EchoesFrame ctx cb) ∧
            ∃ dump u, Quiet dump ∧ after = dump ++ [⟨.fclose "dma_log.csv", u⟩]) ∨
          (¬(opened = true ∧ EchoesFrame ctx cb) ∧ after = [])) := by
  rcases performs_frame.mp hrun with ⟨sel, cb, rest, rfl, hlog⟩
  rcases performs_logFrame hlog with ⟨opened, after, rfl, hafter⟩
  rw [returnCode_getFrameReply] at hafter
  have hselect : Quiet [⟨.select (330#32 + 140#32 * decimationOf ctx), sel⟩] :=
    List.forall_mem_singleton.mpr trivial
  exact ⟨orderCalls ctx ++ [⟨.select (330#32 + 140#32 * decimationOf ctx), sel⟩], cb,
    drainCalls sel, opened, after, by simp, closed_quiet.append (quiet_orderCalls ctx) hselect,
    quiet_drainCalls sel, hafter⟩

/-! ## Requests -/

/-- The request asks for a frame, its log is opened, and the echoes are not its own. -/
def RejectedFrame (F : Type) [MixedPrecision F] (inbuff : List Char) (tr : Trace) : Prop :=
  ∃ ctx : LoadedCtx F, loadContext (cString inbuff.dropLast) = some ctx ∧
    (∃ e, Dispatched ctx e ∧ e.func = .getFrame) ∧ ⟨.fopen "dma_log.csv", true⟩ ∈ tr ∧
      ∃ cb, ⟨.pdhGetCallback, cb⟩ ∈ tr ∧ ¬EchoesFrame ctx.toCmdCtx cb

section Log

variable {F : Type} {ctx : CmdCtx F} {before mid after : Trace} {cb : BitVec 32} {opened : Bool}

/-- Around the log, a frame request opens and closes nothing. -/
theorem openAfter_frame (hbefore : Quiet before) (hmid : Quiet mid) (files : List String) :
    openAfter files (before ++ ⟨.pdhGetCallback, cb⟩ :: mid ++
        ⟨.fopen "dma_log.csv", opened⟩ :: after) =
      openAfter (bif opened then "dma_log.csv" :: files else files) after := by
  have hcallback : openAfter files (⟨.pdhGetCallback, cb⟩ :: mid) = files := hmid.tidy files
  rw [openAfter_append, openAfter_append, hbefore.tidy, hcallback]
  rfl

/-- In the trace of a frame request, the callback and the result of opening the log are the only
ones. -/
theorem rejected_iff (hbefore : Quiet before) (hmid : Quiet mid)
    (hafter : ∀ e ∈ after, IsQuiet e.1 ∨ e.1 = .fclose "dma_log.csv") :
    (⟨.fopen "dma_log.csv", true⟩ ∈ (before ++ ⟨.pdhGetCallback, cb⟩ :: mid ++
          ⟨.fopen "dma_log.csv", opened⟩ :: after : Trace) ∧
        ∃ cb', ⟨.pdhGetCallback, cb'⟩ ∈ (before ++ ⟨.pdhGetCallback, cb⟩ :: mid ++
          ⟨.fopen "dma_log.csv", opened⟩ :: after : Trace) ∧ ¬EchoesFrame ctx cb') ↔
      opened = true ∧ ¬EchoesFrame ctx cb := by
  have hevent : ∀ {e : (c : Call) × c.Response}, ¬IsQuiet e.1 → e.1 ≠ .fclose "dma_log.csv" →
      e ∈ (before ++ ⟨.pdhGetCallback, cb⟩ :: mid ++
        ⟨.fopen "dma_log.csv", opened⟩ :: after : Trace) →
      e = ⟨.pdhGetCallback, cb⟩ ∨ e = ⟨.fopen "dma_log.csv", opened⟩ := by
    intro e hloud hopen he
    simp only [List.mem_append, List.mem_cons] at he
    rcases he with (he | he | he) | he | he
    · exact absurd (hbefore e he) hloud
    · exact .inl he
    · exact absurd (hmid e he) hloud
    · exact .inr he
    · exact absurd (hafter e he) (not_or.mpr ⟨hloud, hopen⟩)
  constructor
  · rintro ⟨hopened, cb', hcb', hwrong⟩
    constructor
    · rcases hevent id (by simp) hopened with h | h
      · cases h
      · cases h
        rfl
    · rcases hevent id (by simp) hcb' with h | h
      · cases h
        exact hwrong
      · cases h
  · rintro ⟨rfl, hwrong⟩
    refine ⟨by simp, cb, by simp, hwrong⟩

end Log

section Serve

variable {F : Type} [MixedPrecision F]

/-- The files that are open after a request. -/
theorem openAfter_request {stack : BitVec 32} {inbuff : List Char} {tr : Trace}
    {reply : Option (List Char)} (hrun : Performs (serve F stack inbuff) tr reply)
    (files : List String) :
    (RejectedFrame F inbuff tr ∧ openAfter files tr = "dma_log.csv" :: files) ∨
      (¬RejectedFrame F inbuff tr ∧ openAfter files tr = files) := by
  cases hload : (loadContext (cString inbuff.dropLast) : Option (LoadedCtx F)) with
  | none =>
      rcases (performs_serve_none hload).mp hrun with ⟨rfl, -⟩
      refine .inr ⟨?_, rfl⟩
      rintro ⟨ctx, hctx, -⟩
      exact absurd (hload.symm.trans hctx) nofun
  | some ctx =>
      have hrejected : RejectedFrame F inbuff tr ↔
          (∃ e, Dispatched ctx e ∧ e.func = .getFrame) ∧ ⟨.fopen "dma_log.csv", true⟩ ∈ tr ∧
            ∃ cb, ⟨.pdhGetCallback, cb⟩ ∈ tr ∧ ¬EchoesFrame ctx.toCmdCtx cb := by
        constructor
        · rintro ⟨ctx', hctx, h⟩
          obtain rfl := Option.some.inj (hload.symm.trans hctx)
          exact h
        · intro h
          exact ⟨ctx, hload, h⟩
      rw [hrejected]
      rcases performs_serve_some hload hrun with ⟨e, r, he, hhandler, -⟩ | ⟨hnone, rfl, -⟩
      · by_cases hframe : e.func = .getFrame
        · rw [hframe] at hhandler
          have hentry : ∃ e, Dispatched ctx e ∧ e.func = .getFrame := ⟨e, he, hframe⟩
          rcases performs_cmdGetFrame hhandler with
            ⟨before, cb, mid, opened, after, rfl, hbefore, hmid, hafter⟩
          rw [and_iff_right hentry, openAfter_frame hbefore hmid]
          rcases hafter with ⟨⟨rfl, hechoes⟩, dump, u, hdump, rfl⟩ | ⟨hfailed, rfl⟩
          · refine .inr ⟨?_, ?_⟩
            · rw [rejected_iff hbefore hmid]
              · exact fun h => h.2 hechoes
              · intro e he
                rcases List.mem_append.mp he with he | he
                · exact .inl (hdump e he)
                · exact .inr (by rw [List.mem_singleton.mp he])
            · rw [openAfter_append, hdump.tidy]
              exact List.erase_cons_head "dma_log.csv" files
          · rw [rejected_iff hbefore hmid fun e he => absurd he List.not_mem_nil]
            cases opened with
            | true => exact .inl ⟨⟨rfl, fun h => hfailed ⟨rfl, h⟩⟩, rfl⟩
            | false => exact .inr ⟨fun h => absurd h.1 Bool.false_ne_true, rfl⟩
        · have htidy := (files_spec stack ctx.toCmdCtx hframe tr r hhandler).1 files
          refine .inr ⟨?_, htidy⟩
          rintro ⟨⟨e', he', hframe'⟩, -⟩
          rw [he.unique he'] at hframe
          exact hframe hframe'
      · exact .inr ⟨fun h => hnone _ h.1.choose_spec.1, rfl⟩

end Serve

/-! ## Runs -/

/-- A request that was served. -/
structure Request (F : Type) [MixedPrecision F] where
  stack : BitVec 32
  inbuff : List Char
  trace : Trace
  reply : Option (List Char)
  served : Performs (serve F stack inbuff) trace reply

section Runs

variable {F : Type} [MixedPrecision F]

/-- The files that are open after some requests. -/
def openAfterAll (files : List String) (requests : List (Request F)) : List String :=
  requests.foldl (fun files q => openAfter files q.trace) files

theorem openAfterAll_append_singleton (files : List String) (requests : List (Request F))
    (q : Request F) :
    openAfterAll files (requests ++ [q]) = openAfter (openAfterAll files requests) q.trace :=
  List.foldl_append

/-- A request leaves the files open that were open before it, unless its frame was rejected. -/
theorem openAfterAll_append_eq_iff (files : List String) (done : List (Request F))
    (q : Request F) :
    openAfterAll files (done ++ [q]) = openAfterAll files done ↔
      ¬RejectedFrame F q.inbuff q.trace := by
  rw [openAfterAll_append_singleton]
  rcases openAfter_request q.served (openAfterAll files done) with ⟨hrejected, hopen⟩ | ⟨h, hopen⟩
  · rw [hopen]
    simp [hrejected]
  · simp [hopen, h]

/-- Every request leaves the files open that were open before it if and only if no request is a
frame request whose log was opened and whose echoes were wrong. -/
theorem files_kept_iff (files : List String) (requests : List (Request F)) :
    (∀ done q rest, requests = done ++ q :: rest →
        openAfterAll files (done ++ [q]) = openAfterAll files done) ↔
      ∀ q ∈ requests, ¬RejectedFrame F q.inbuff q.trace := by
  constructor
  · intro h q hq
    rcases List.append_of_mem hq with ⟨done, rest, hsplit⟩
    exact (openAfterAll_append_eq_iff files done q).mp (h done q rest hsplit)
  · intro h done q rest hsplit
    apply (openAfterAll_append_eq_iff files done q).mpr
    apply h q
    rw [hsplit]
    simp

/-- Without such requests, the files that are open never change. -/
theorem openAfterAll_eq (files : List String) (requests : List (Request F))
    (h : ∀ q ∈ requests, ¬RejectedFrame F q.inbuff q.trace) :
    openAfterAll files requests = files := by
  induction requests using List.reverseRecOn with
  | nil => rfl
  | append_singleton requests q ih =>
      rw [(openAfterAll_append_eq_iff files requests q).mpr (h q (by simp))]
      exact ih fun q' hq' => h q' (List.mem_append_left _ hq')

open scoped Classical in
/-- Each of them leaves one more file open. -/
theorem length_openAfterAll (files : List String) (requests : List (Request F)) :
    (openAfterAll files requests).length =
      files.length + requests.countP fun q => decide (RejectedFrame F q.inbuff q.trace) := by
  induction requests using List.reverseRecOn with
  | nil => rfl
  | append_singleton requests q ih =>
      rw [openAfterAll_append_singleton, List.countP_append, List.countP_singleton]
      rcases openAfter_request q.served (openAfterAll files requests) with ⟨h, hopen⟩ | ⟨h, hopen⟩
      · rw [hopen, List.length_cons, ih]
        simp [h, Nat.add_assoc]
      · rw [hopen, ih]
        simp [h]

end Runs

/-! ### A request for a frame -/

/-- The text of a request for a frame. -/
def frameText : List Char :=
  "CMD:get_frame\nU:1,0\n".toList

/-- The request as it is parsed. -/
theorem exists_frameCtx :
    ∃ ctx : LoadedCtx ℚ, loadContext (cString frameText.dropLast) = some ctx ∧
      (∃ e, Dispatched ctx e ∧ e.func = .getFrame) ∧ ¬EchoesFrame ctx.toCmdCtx 0#32 := by
  have hsome : (loadContext (cString frameText.dropLast) : Option (LoadedCtx ℚ)).isSome := by
    decide +kernel
  rcases Option.isSome_iff_exists.mp hsome with ⟨ctx, hload⟩
  have hfields : (loadContext (cString frameText.dropLast) : Option (LoadedCtx ℚ)).map
      (fun ctx => (findEntry ctx.name, ctx.numFloats, ctx.numInts, ctx.numUints,
        decimationOf ctx.toCmdCtx)) =
      some (some ⟨"get_frame".toList, .getFrame, 0, 0, 2⟩, 0, 0, 2, 1#32) := by
    decide +kernel
  rw [hload, Option.map_some, Option.some_inj] at hfields
  simp only [Prod.mk.injEq] at hfields
  rcases hfields with ⟨hentry, hfloats, hints, huints, hdecimation⟩
  refine ⟨ctx, hload, ⟨_, ⟨hentry, ?_⟩, rfl⟩, fun hechoes => ?_⟩
  · simp [CmdEntry.check, hfloats, hints, huints]
  · have hdec := hechoes.1
    rw [hdecimation] at hdec
    exact absurd hdec (by decide)

/-- A request for a frame, answered by a core that echoes nothing, leaves its log open. -/
theorem frame_leaves_log_open :
    ∃ q : Request ℚ, q.inbuff = frameText ∧ openAfterAll [] [q] = ["dma_log.csv"] ∧
      ¬∀ done q' rest, [q] = done ++ q' :: rest →
        openAfterAll [] (done ++ [q']) = openAfterAll [] done := by
  rcases exists_performs_of_answer (fun c : Call => (default : c.Response))
    (serve ℚ 0#32 frameText) with ⟨tr, reply, hrun, hanswers⟩
  have hleft : openAfter [] tr = ["dma_log.csv"] := by
    rcases exists_frameCtx with ⟨ctx, hload, ⟨e, he, hframe⟩, hechoes⟩
    rcases performs_serve_some hload hrun with ⟨e', r, he', hhandler, -⟩ | ⟨hnone, -⟩
    · obtain rfl := he.unique he'
      rw [hframe] at hhandler
      rcases performs_cmdGetFrame hhandler with
        ⟨before, cb, mid, opened, after, rfl, hbefore, hmid, hafter⟩
      have hcb : cb = 0#32 := hanswers ⟨.pdhGetCallback, cb⟩ (by simp)
      have hopened : opened = true := hanswers ⟨.fopen "dma_log.csv", opened⟩ (by simp)
      subst hcb
      subst hopened
      rw [openAfter_frame hbefore hmid]
      rcases hafter with ⟨⟨-, h⟩, -⟩ | ⟨-, rfl⟩
      · exact absurd h hechoes
      · rfl
    · exact absurd he (hnone e)
  refine ⟨⟨0#32, frameText, tr, reply, hrun⟩, rfl, hleft, fun hkept => ?_⟩
  have h := hkept [] _ [] rfl
  exact absurd (hleft.symm.trans h) nofun

end Requests
end PoundDreverHall
