import PoundDreverHall.Requests.Behaviour

/-!
# Requests - the calls of `cmd_get_frame`

The handler enables the interrupt, strobes {lit}`CMD_IDLE` and {lit}`CMD_GET_FRAME`,
waits in {lit}`select`, gets the callback and drains the interrupt.  What follows reads
the frame and writes the log.

Main results:

- Theorem {lit}`performs_frame`: the calls of the handler.
- Theorem {lit}`cmdGetFrame_emits`: the words that it sends.
-/

namespace PoundDreverHall
namespace Requests

open Device Device.Program Server

/-! ## The words of the handler -/

theorem cmd_getFrameWord (decimationCode frameCode : BitVec 32) :
    PdhCmdT.cmd.get (getFrameWord decimationCode frameCode) = PdhCmdE.getFrame.code := by
  have hframe := BitField.get_set_of_disjoint (f := PdhCmdT.frameCode) (g := PdhCmdT.cmd)
    (.inl (Nat.le_refl 26)) (frameCode.setWidth 4)
    (PdhCmdT.decimation.set (decimationCode.setWidth 22) (cmdWord .getFrame))
  have hdec := BitField.get_set_of_disjoint (f := PdhCmdT.decimation) (g := PdhCmdT.cmd)
    (.inl (show 0 + 22 ≤ 26 by omega)) (decimationCode.setWidth 22) (cmdWord .getFrame)
  exact (hframe.trans hdec).trans (BitField.get_set PdhCmdT.cmd _ _)

section Words

variable {F : Type} (ctx : CmdCtx F)

/-- The words of the strobes of `cmd_get_frame`. -/
def frameWords : List (BitVec 32) :=
  [cmdWord .idle, getFrameWord (decimationOf ctx) (ctx.uintArgs 1)].flatMap strobed

/-- The word that orders the frame. -/
def orderWord : BitVec 32 :=
  PdhCmdT.strobe.set 1#1 (getFrameWord (decimationOf ctx) (ctx.uintArgs 1))

theorem rstBit_frameWords : ∀ w ∈ frameWords ctx, PdhCore.rstBit w = false :=
  rstBit_of_mem_strobed
    (List.forall_mem_cons.mpr ⟨rstBit_cmdWord _, List.forall_mem_singleton.mpr
      (rstBit_getFrameWord _ _)⟩)

theorem cmdW_orderWord : PdhCore.cmdW (orderWord ctx) = .getFrame :=
  (cmdW_strobe 1#1 _).trans (congrArg PdhCore.Cmd.ofCode (cmd_getFrameWord _ _))

end Words

/-! ## The calls of the handler -/

/-- The calls before {lit}`select`. -/
def orderCalls {F : Type} (ctx : CmdCtx F) : Trace :=
  ⟨.uioAckIrq, ()⟩ :: (frameWords ctx).map fun w => ⟨.pdhSendCmd w, ()⟩

/-- The interrupt is read and enabled again, if {lit}`select` did not time out. -/
def drainCalls (sel : ℤ) : Trace :=
  if 0 < sel then [⟨.uioWaitIrq, ()⟩, ⟨.uioAckIrq, ()⟩] else []

section Handler

variable {F : Type} {ctx : CmdCtx F} {tr : Trace} {r : Reply F}

/-- A run that starts with a call. -/
theorem performs_call {α : Type} {c : Call} {f : c.Response → Routine α} {a : α} :
    Performs (c.run >>= f) tr a ↔ ∃ resp rest, tr = ⟨c, resp⟩ :: rest ∧ Performs (f resp) rest a := by
  rw [performs_bind]
  constructor
  · rintro ⟨tr₁, resp, rest, h₁, h₂, rfl⟩
    rw [performs_op.mp h₁]
    exact ⟨resp, rest, rfl, h₂⟩
  · rintro ⟨resp, rest, rfl, h⟩
    exact ⟨_, resp, rest, performs_op.mpr rfl, h, rfl⟩

/-- A run that starts with a strobed command. -/
theorem performs_strobe {α : Type} {cmd : BitVec 32} {f : Unit → Routine α} {a : α} :
    Performs (pdhStrobeCmd cmd >>= f) tr a ↔
      ∃ rest, tr = (strobed cmd).map (fun w => ⟨.pdhSendCmd w, ()⟩) ++ rest ∧
        Performs (f ()) rest a := by
  rw [pdhStrobeCmd, bind_assoc, performs_call]
  constructor
  · rintro ⟨_, tr₁, rfl, h₁⟩
    rcases performs_call.mp h₁ with ⟨_, rest, rfl, h₂⟩
    exact ⟨rest, rfl, h₂⟩
  · rintro ⟨rest, rfl, h⟩
    exact ⟨(), _, rfl, performs_call.mpr ⟨(), rest, rfl, h⟩⟩

/-- The calls of the handler. -/
theorem performs_frame :
    Performs (cmdGetFrame ctx) tr r ↔
      ∃ sel cb rest,
        tr = orderCalls ctx ++ ⟨.select (330#32 + 140#32 * decimationOf ctx), sel⟩ ::
          ⟨.pdhGetCallback, cb⟩ :: (drainCalls sel ++ rest) ∧
        Performs (logFrame (ctx.uintArgs 1)
          (getFrameReply (decimationOf ctx) (ctx.uintArgs 1) cb)) rest r := by
  dsimp only [cmdGetFrame]
  rw [← decimationOf, performs_call]
  constructor
  · rintro ⟨_, tr₁, rfl, h₁⟩
    rcases performs_strobe.mp h₁ with ⟨tr₂, rfl, h₂⟩
    rcases performs_strobe.mp h₂ with ⟨tr₃, rfl, h₃⟩
    rcases performs_call.mp h₃ with ⟨sel, tr₄, rfl, h₄⟩
    rcases performs_call.mp h₄ with ⟨cb, tr₅, rfl, h₅⟩
    by_cases hsel : 0 < sel
    · rw [if_pos hsel] at h₅
      rcases performs_call.mp h₅ with ⟨_, tr₆, rfl, h₆⟩
      rcases performs_call.mp h₆ with ⟨_, rest, rfl, h₇⟩
      exact ⟨sel, cb, rest, by rw [drainCalls, if_pos hsel]; rfl, h₇⟩
    · rw [if_neg hsel] at h₅
      exact ⟨sel, cb, tr₅, by rw [drainCalls, if_neg hsel]; rfl, h₅⟩
  · rintro ⟨sel, cb, rest, rfl, h⟩
    refine ⟨(), _, rfl, performs_strobe.mpr ⟨_, rfl, performs_strobe.mpr ⟨_, rfl, ?_⟩⟩⟩
    refine performs_call.mpr ⟨sel, _, rfl, performs_call.mpr ⟨cb, _, rfl, ?_⟩⟩
    by_cases hsel : 0 < sel
    · rw [if_pos hsel, drainCalls, if_pos hsel]
      exact performs_call.mpr ⟨(), _, rfl, performs_call.mpr ⟨(), _, rfl, h⟩⟩
    · rw [if_neg hsel, drainCalls, if_neg hsel]
      exact h

/-! ### The log -/

/-- What holds of the two calls of a line holds of all lines. -/
theorem dumpFrame_rule {Q : Trace → Prop} (hclosed : Closed Q)
    (hread : ∀ offset frame, Q [⟨.dmaGetFrame offset, frame⟩])
    (hprint : ∀ fields, Q [⟨.fprintf fields, ()⟩]) (frameCode offset : BitVec 32) (n : ℕ) :
    Spec (dumpFrame frameCode offset n) Q fun _ => True := by
  induction n generalizing offset with
  | zero => exact Spec.pure hclosed trivial
  | succ n ih =>
      refine Spec.bind hclosed (Spec.op fun frame => hread offset frame) fun _ _ => ?_
      refine Spec.bind hclosed (Spec.op fun _ => hprint _) fun _ _ => ?_
      exact ih _

/-- A call that reads the frame or writes the log. -/
def IsLogCall : Call → Prop
  | .dmaGetFrame _ => True
  | .fopen _ => True
  | .fprintf _ => True
  | .fclose _ => True
  | _ => False

/-- A trace of such calls. -/
def Logs (tr : Trace) : Prop :=
  ∀ e ∈ tr, IsLogCall e.1

/-- Calls of the log after calls of the log. -/
theorem closed_logs : Closed Logs where
  nil := fun _ he => absurd he List.not_mem_nil
  append h h' := List.forall_mem_append.mpr ⟨h, h'⟩

/-- A single call of the log. -/
theorem logs_call {c : Call} (h : IsLogCall c) : Spec c.run Logs fun _ => True :=
  Spec.op fun _ => List.forall_mem_singleton.mpr h

/-- The entries of a frame are read and written. -/
theorem logs_dumpFrame (frameCode offset : BitVec 32) (n : ℕ) :
    Spec (dumpFrame frameCode offset n) Logs fun _ => True :=
  dumpFrame_rule closed_logs (fun _ _ => List.forall_mem_singleton.mpr trivial)
    (fun _ => List.forall_mem_singleton.mpr trivial) frameCode offset n

/-- The log is opened, filled and closed. -/
theorem logs_logFrame (frameCode : BitVec 32) (r : Reply F) :
    Spec (logFrame frameCode r) Logs fun _ => True := by
  refine Spec.bind closed_logs (logs_call trivial) fun opened _ => ?_
  dsimp only
  generalize (if opened = true then r.returnCode else 1) = code
  by_cases hcode : code = 0
  · rw [if_pos hcode]
    refine Spec.bind closed_logs (logs_dumpFrame _ _ _) fun _ _ => ?_
    refine Spec.bind closed_logs (logs_call trivial) fun _ _ => ?_
    exact Spec.pure closed_logs trivial
  · rw [if_neg hcode]
    exact Spec.pure closed_logs trivial

/-- A reply without a failure is logged, if the file can be opened. -/
theorem exists_logFrame (frameCode : BitVec 32) {r : Reply F} (hr : r.returnCode = 0) :
    ∃ frame tail r', Performs (logFrame frameCode r)
        (⟨.fopen "dma_log.csv", true⟩ :: ⟨.dmaGetFrame 0#32, frame⟩ :: tail) r' ∧
      r'.returnCode = 0 := by
  rcases exists_performs (fun c : Call => (default : c.Response))
    (dumpFrame frameCode 0#32 (0x20000 / 8)) with ⟨dump, _, hdump⟩
  rcases performs_call.mp hdump with ⟨frame, tail, rfl, -⟩
  have hlog : Performs (logFrame frameCode r)
      (⟨.fopen "dma_log.csv", true⟩ :: ⟨.dmaGetFrame 0#32, frame⟩ ::
        (tail ++ [⟨.fclose "dma_log.csv", ()⟩]))
      { r with
        outputItems := r.outputItems ++ [⟨"return_code", .uint (BitVec.ofNat 32 r.returnCode)⟩] } := by
    refine performs_call.mpr ⟨true, _, rfl, ?_⟩
    dsimp only
    rw [if_pos rfl, if_pos hr]
    exact performs_bind.mpr ⟨_, _, _, hdump,
      performs_call.mpr ⟨(), [], rfl, performs_pure.mpr ⟨rfl, rfl⟩⟩, rfl⟩
  exact ⟨frame, _, _, hlog, hr⟩

/-- The log sends no word. -/
theorem Logs.sent (h : Logs tr) : shown Call.sent tr = [] := by
  refine List.flatMap_eq_nil_iff.mpr fun e he => ?_
  have hcall := h e he
  rcases e with ⟨c, resp⟩
  cases c with
  | pdhSendCmd raw => exact hcall.elim
  | _ => rfl

/-- The handler sends its words and nothing else. -/
theorem cmdGetFrame_emits (ctx : CmdCtx F) :
    Emits Call.sent (cmdGetFrame ctx) (frameWords ctx) := by
  intro tr r hrun
  rcases performs_frame.mp hrun with ⟨sel, cb, rest, rfl, hlog⟩
  have hrest := (logs_logFrame _ _ rest r hlog).1.sent
  have hdrain : shown Call.sent (drainCalls sel) = [] := by
    rw [drainCalls]
    split_ifs <;> rfl
  have horder : shown Call.sent (orderCalls ctx) = frameWords ctx := rfl
  simp only [shown, List.flatMap_append, List.flatMap_cons] at hrest hdrain horder ⊢
  rw [hrest, hdrain, horder]
  exact List.append_nil _

end Handler

end Requests
end PoundDreverHall
