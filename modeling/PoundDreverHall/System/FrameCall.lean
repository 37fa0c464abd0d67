import PoundDreverHall.Frame.OwnFrame
import PoundDreverHall.Requests.OpenFiles
import PoundDreverHall.System.Execution

/-!
# System - a call of `cmd_get_frame`

The interrupt that the handler waits for may be that of another command, and the handler
reads the frame when it has waited for too long.  If the call finds the board at rest and
{lit}`select` does not time out, the interrupt is that of its own frame.

Main results:

- Theorem {lit}`frame_before_read`: a frame is complete before it is read.
- Theorem {lit}`success_reads_early`: a call may succeed without a frame.
-/

namespace PoundDreverHall
namespace System

open Clocked Device Device.Program PdhTop Requests Server

/-! ## Executions of the handler -/

/-- An execution of the handler. -/
abbrev FrameCall {P : Params} {F : Type} (rom : Nco.Rom) (b₀ : Board P) (moves : List Move)
    (ctx : CmdCtx F) (r : Reply F) : Prop :=
  Execution rom b₀ moves (cmdGetFrame ctx) r

/-- The core is out of reset with its registers settled, and there is no interrupt. -/
structure Board.AtRest {P : Params} (b : Board P) : Prop where
  rstBit : PdhCore.rstBit b.fabric.axiFromPs = false
  settled : (control b.fabric).Settled
  silent : Silent b

/-- The first of two marks is before the second in a list, or at it. -/
theorem mem_of_append_cons_eq {α : Type*} {xs ys xs' ys' : List α} {x x' : α}
    (h : xs ++ x :: ys = xs' ++ x' :: ys') (hx : x ∉ xs') (hne : x ≠ x') : x' ∈ xs := by
  rcases List.append_eq_append_iff.mp h with ⟨as, rfl, has⟩ | ⟨as, rfl, has⟩
  · cases as with
    | nil =>
        rw [List.nil_append, List.cons.injEq] at has
        exact absurd has.1 hne
    | cons a as =>
        rw [List.cons_append, List.cons.injEq] at has
        rw [has.1] at hx
        simp at hx
  · cases as with
    | nil =>
        rw [List.nil_append, List.cons.injEq] at has
        exact absurd has.1.symm hne
    | cons a as =>
        rw [List.cons_append, List.cons.injEq] at has
        rw [has.1]
        simp

/-- The words of the handler order a frame, whatever is on the bus before. -/
theorem orderWords {F : Type} (ctx : CmdCtx F) (old : BitVec 32) :
    Control.OrderWords fun n => (old :: frameWords ctx).getD n 0#32 where
  low₁ := strobeBit_strobe 0#1 _
  idle := (cmdW_strobe 1#1 _).trans (cmdW_cmdWord .idle)
  low₃ := strobeBit_strobe 0#1 _
  getFrame := cmdW_orderWord ctx

namespace FrameCall

variable {P : Params} {F : Type} {rom : Nco.Rom} {b₀ : Board P} {moves : List Move}
  {ctx : CmdCtx F} {r : Reply F} (h : FrameCall rom b₀ moves ctx r)

include h

/-- What the call sends is a beginning of its words, at any time. -/
theorem sent_prefix_words (n : ℕ) : log (fun k => (moveAt moves k).sent) n <+: frameWords ctx := by
  have hall : log (fun k => (moveAt moves k).sent) moves.length = frameWords ctx := by
    rw [log_sent, log_calls]
    exact cmdGetFrame_emits ctx _ _ h.performs
  rcases Nat.le_total n moves.length with hn | hn
  · rw [← hall]
    exact log_prefix_log _ hn
  · obtain ⟨d, rfl⟩ := Nat.exists_eq_add_of_le hn
    have hrest : log (fun k => (moveAt moves (moves.length + k)).sent) d = [] := by
      refine log_eq_nil fun k _ => ?_
      rw [Move.sent, moveAt_of_le (Nat.le_add_right _ k)]
      rfl
    rw [log_add, hall, hrest, List.append_nil]

theorem noReset (n : ℕ) : (moveAt moves n).NoReset := by
  intro w hw
  have hmem := (h.sent_prefix_words (n + 1)).subset (mem_log.mpr ⟨n, Nat.lt_succ_self n, hw⟩)
  exact rstBit_frameWords ctx w hmem

/-- For the fabric the call is the order of a frame. -/
theorem orderRun (hrest : b₀.AtRest) :
    OrderRun rom b₀.fabric (events rom b₀ (moveAt moves))
      (fun n => (b₀.fabric.axiFromPs :: frameWords ctx).getD n 0#32)
      (fun n => (log (fun k => (moveAt moves k).sent) n).length) where
  settled := hrest.settled
  words := orderWords ctx _
  rstBit := hrest.rstBit
  noReset := noReset_events hrest.rstBit h.noReset
  bus n := by
    rw [← (fabric_run hrest.rstBit h.noReset n).1, bus_run h.noReset]
    exact getLastD_eq_getD (h.sent_prefix_words n) _ _
  mono _ _ hmn := (log_prefix_log _ hmn).length_le
  le n := (h.sent_prefix_words n).length_le

/-- The handler reads the frame after {lit}`select`. -/
theorem exists_select {n : ℕ} {offset : BitVec 32} {frame : BitVec 64}
    (hn : moves[n]? = some (.call (.dmaGetFrame offset) frame)) :
    ∃ k < n, ∃ usec sel, moves[k]? = some (.call (.select usec) sel) := by
  obtain ⟨d, hd⟩ := Nat.exists_eq_add_of_lt (List.getElem?_eq_some_iff.mp hn).1
  rcases performs_frame.mp h.performs with ⟨sel, cb, rest, hcalls, -⟩
  rw [← log_calls, hd, Nat.add_assoc, log_add, Nat.add_comm d, log_add, log_succ, Nat.add_zero,
    moveAt_eq_call.mpr hn] at hcalls
  have hsel := mem_of_append_cons_eq hcalls (by simp [orderCalls]) (by simp)
  rcases mem_log.mp hsel with ⟨k, hk, hmem⟩
  refine ⟨k, hk, 330#32 + 140#32 * decimationOf ctx, sel, moveAt_eq_call.mp ?_⟩
  cases hm : moveAt moves k with
  | clock e =>
      rw [hm] at hmem
      cases hmem
  | call c resp =>
      rw [hm] at hmem
      cases List.mem_singleton.mp hmem
      rfl

/-- The interrupt that the handler waits for is that of the ready level. -/
theorem dmaReadyEdgeW_of_raises (hrest : b₀.AtRest) {i : ℕ}
    (hraise : raises (run (Board.step rom) b₀ (moveAt moves) i).fabric = true) :
    (control (run (Board.step rom) b₀ (moveAt moves) i).fabric).orch.dmaReadyEdgeW = true := by
  rw [(fabric_run hrest.rstBit h.noReset i).1] at hraise ⊢
  exact (h.orderRun hrest).dmaReadyEdgeW_of_nextIrqR hraise

end FrameCall

/-! ### Runs that a beginning makes possible -/

theorem answers_of_isLogCall {P : Params} {c : Call} (h : IsLogCall c) (b : Board P)
    (resp : c.Response) : b.Answers c resp := by
  cases c with
  | dmaGetFrame offset => trivial
  | fopen path => trivial
  | fprintf fields => trivial
  | fclose path => trivial
  | _ => exact h.elim

/-- When the callback echoes the request, the call goes on to read the frame, and succeeds. -/
theorem exists_frameCall {P : Params} {F : Type} {rom : Nco.Rom} {b₀ : Board P} {ctx : CmdCtx F}
    {pre : List Move} {sel : ℤ} {cb : BitVec 32}
    (haccepts : ∀ n < pre.length, (run (Board.step rom) b₀ (moveAt pre) n).Accepts (moveAt pre n))
    (hcalls : pre.flatMap Move.calls =
      orderCalls ctx ++ ⟨.select (330#32 + 140#32 * decimationOf ctx), sel⟩ ::
        ⟨.pdhGetCallback, cb⟩ :: drainCalls sel)
    (hechoes : EchoesFrame ctx cb) :
    ∃ frame tail r, Logs (⟨.fopen "dma_log.csv", true⟩ :: ⟨.dmaGetFrame 0#32, frame⟩ :: tail) ∧
      FrameCall rom b₀ (pre ++ callMoves
        (⟨.fopen "dma_log.csv", true⟩ :: ⟨.dmaGetFrame 0#32, frame⟩ :: tail)) ctx r ∧
      r.returnCode = 0 := by
  rcases exists_logFrame (ctx.uintArgs 1) ((returnCode_getFrameReply ctx cb).mpr hechoes) with
    ⟨frame, tail, r, hlog, hr⟩
  have hlogs := (logs_logFrame _ _ _ r hlog).1
  refine ⟨frame, tail, r, hlogs, ⟨fun n hn => ?_, ?_⟩, hr⟩
  · rcases Nat.lt_or_ge n pre.length with hlt | hge
    · rw [moveAt_append hlt, run_congr fun k hk => moveAt_append (hk.trans hlt) _]
      exact haccepts n hlt
    · obtain ⟨k, rfl⟩ := Nat.exists_eq_add_of_le hge
      rw [List.length_append] at hn
      rcases exists_moveAt_callMoves (Nat.lt_of_add_lt_add_left hn) with ⟨e, he, hmove⟩
      rw [moveAt_append_right, hmove]
      exact answers_of_isLogCall (hlogs e he) _ _
  · rw [List.flatMap_append, hcalls, flatMap_callMoves]
    exact performs_frame.mpr ⟨sel, cb, _, by simp, hlog⟩

/-! ## The frame of the call -/

/-- If the call finds the board at rest and {lit}`select` does not time out, then before
every read the frame that the strobe of the call ordered has been captured and read out. -/
theorem frame_before_read {P : Params} {F : Type} {rom : Nco.Rom} {b₀ : Board P}
    {moves : List Move} {ctx : CmdCtx F} {r : Reply F} (h : FrameCall rom b₀ moves ctx r)
    (hrest : b₀.AtRest) (hsel : ∀ usec sel, .call (.select usec) sel ∈ moves → (0 : ℤ) < sel)
    {n : ℕ} {offset : BitVec 32} {frame : BitVec 64}
    (hn : moves[n]? = some (.call (.dmaGetFrame offset) frame)) :
    ∃ g l, g < l ∧ moves[g]? = some (.call (.pdhSendCmd (orderWord ctx)) ()) ∧
      Latches rom b₀.fabric (events rom b₀ (moveAt moves)) l (orderWord ctx) ∧
      FrameComplete rom b₀.fabric (events rom b₀ (moveAt moves)) l n := by
  rcases h.exists_select hn with ⟨k, hkn, usec, sel, hk⟩
  have haccepts := h.accepts k (List.getElem?_eq_some_iff.mp hk).1
  rw [moveAt_eq_call.mpr hk] at haccepts
  have hreadable : (run (Board.step rom) b₀ (moveAt moves) k).uio.readable = true :=
    haccepts.mp (hsel usec sel (List.mem_of_getElem? hk))
  rcases exists_raise hrest.rstBit h.noReset hrest.silent hreadable with ⟨i, hik, hraise⟩
  have hedge := h.dmaReadyEdgeW_of_raises hrest hraise
  rw [(fabric_run hrest.rstBit h.noReset i).1] at hedge
  rcases frameComplete_of_edge (h.orderRun hrest) (hik.trans hkn).le hedge with
    ⟨l, -, hal, hlatch, hcomplete⟩
  -- all words were sent before the last one was latched
  have hall := (h.sent_prefix_words l).eq_of_length hal
  have hsent : orderWord ctx ∈ log (fun k => (moveAt moves k).sent) l := by
    rw [hall]
    simp [frameWords, strobed, orderWord]
  rcases mem_log.mp hsent with ⟨g, hgl, hg⟩
  exact ⟨g, l, hgl, moveAt_eq_call.mp (eq_send_of_mem_sent hg), hlatch, hcomplete⟩

/-! ## Calls after reset -/

/-- A board some edges after reset, with the device just opened. -/
def restBoard (P : Params) : Board P where
  fabric := run (PdhTop.step fun _ => 0#16) (releasedState P fun _ => 0#16)
    (fun _ => .bothClk quietAdc readySlave) 60
  uio := Uio.opened

/-- A request with ones as its arguments. -/
def oneCtx : CmdCtx ℚ :=
  { firstSignalCtx with uintArgs := fun _ => 1#32 }

/-- Edges of both clocks. -/
def edges (n : ℕ) : List Move :=
  List.replicate n (.clock ⟨.bothClk quietAdc readySlave, rfl⟩)

/-- Words that are sent with a few edges after each. -/
def sending (words : List (BitVec 32)) : List Move :=
  words.flatMap fun w => .call (.pdhSendCmd w) () :: edges 6

/-- A call of the handler up to the log, with {lit}`n` edges before {lit}`select` returns. -/
def frameMoves (n : ℕ) (sel : ℤ) : List Move :=
  .call .uioAckIrq () :: sending (frameWords oneCtx) ++ edges n ++
    .call (.select 470#32) sel :: .call .pdhGetCallback 0x70800003#32 ::
      callMoves (drainCalls sel)

/-- A call of `cmd_set_led`. -/
def ledMoves : List Move :=
  sending (strobed (PdhCmdT.ledCode.set 1#8 (cmdWord .setLed))) ++
    [.call .pdhGetCallback 0x10000001#32]

theorem atRest_restBoard : (restBoard {}).AtRest := by
  refine ⟨by decide +kernel, ?_, ?_⟩
  · constructor <;> decide +kernel
  · constructor <;> decide +kernel

theorem calls_frameMoves (n : ℕ) (sel : ℤ) :
    (frameMoves n sel).flatMap Move.calls =
      orderCalls oneCtx ++ ⟨.select (330#32 + 140#32 * decimationOf oneCtx), sel⟩ ::
        ⟨.pdhGetCallback, 0x70800003#32⟩ :: drainCalls sel := by
  have hedges : (edges n).flatMap Move.calls = [] :=
    List.flatMap_eq_nil_iff.mpr fun m hm => by rw [List.eq_of_mem_replicate hm]; rfl
  have hdrain := flatMap_callMoves (drainCalls sel)
  simp only [frameMoves, List.flatMap_append, List.flatMap_cons, hedges, hdrain]
  rfl

theorem echoesFrame_oneCtx : EchoesFrame oneCtx 0x70800003#32 := by
  decide

/-- The call reports success and reads a frame, although there was no transfer since it
began. -/
def ReadsEarly (b₀ : Board {}) (sel : ℤ) : Prop :=
  ∃ moves r n usec frame, FrameCall (fun _ => 0#16) b₀ moves oneCtx r ∧ r.returnCode = 0 ∧
    .call (.select usec) sel ∈ moves ∧ moves[n]? = some (.call (.dmaGetFrame 0#32) frame) ∧
    ∀ u ≤ n, transferLevel (fun _ => 0#16) b₀.fabric (events (fun _ => 0#16) b₀ (moveAt moves)) u =
      false

/-- A call that gets its callback while the DMA controller has been idle reads too early. -/
theorem readsEarly {b₀ : Board {}} {sel : ℤ} (hrst : PdhCore.rstBit b₀.fabric.axiFromPs = false)
    (haccepts : ∀ n < (frameMoves 0 sel).length,
      (run (Board.step fun _ => 0#16) b₀ (moveAt (frameMoves 0 sel)) n).Accepts
        (moveAt (frameMoves 0 sel) n))
    (hidle : ∀ n ≤ (frameMoves 0 sel).length,
      (run (Board.step fun _ => 0#16) b₀ (moveAt (frameMoves 0 sel)) n).fabric.uDma.stateR = .idle) :
    ReadsEarly b₀ sel := by
  rcases exists_frameCall haccepts (calls_frameMoves 0 sel) echoesFrame_oneCtx with
    ⟨frame, tail, r, -, hcall, hr⟩
  refine ⟨_, r, (frameMoves 0 sel).length + 1, 470#32, frame, hcall, hr, ?_, ?_, ?_⟩
  · simp [frameMoves]
  · exact moveAt_eq_call.mp (moveAt_append_right _ _ 1)
  · intro u hu
    rw [transferLevel, ← (fabric_run hrst hcall.noReset u).1]
    rcases Nat.le_succ_iff.mp hu with hle | rfl
    · rw [run_congr fun k hk => moveAt_append (hk.trans_le hle) _, hidle u hle]
      rfl
    · -- opening the log changes nothing
      have hopen := moveAt_append_right (frameMoves 0 sel)
        (callMoves (⟨.fopen "dma_log.csv", true⟩ :: ⟨.dmaGetFrame 0#32, frame⟩ :: tail)) 0
      rw [Nat.add_zero] at hopen
      rw [Nat.succ_eq_add_one, run_succ, hopen, run_congr fun k hk => moveAt_append hk _]
      exact bne_eq_false_iff_eq.mpr (hidle _ le_rfl)

theorem exists_ledReply : ∃ r, Performs (cmdSetLed oneCtx) (ledMoves.flatMap Move.calls) r :=
  ⟨_, .perform (.perform (.perform (.done _)))⟩

/-- Success does not show that the frame has been read out: `select` may time out, and an
interrupt of a command before may be left to be read. -/
theorem success_reads_early :
    (restBoard {}).AtRest ∧ ReadsEarly (restBoard {}) 0 ∧
      ∃ moves r, Execution (fun _ => 0#16) (restBoard {}) moves (cmdSetLed oneCtx) r ∧
        ReadsEarly (run (Board.step fun _ => 0#16) (restBoard {}) (moveAt moves) moves.length) 1 := by
  rcases exists_ledReply with ⟨r, hled⟩
  refine ⟨atRest_restBoard, readsEarly ?_ ?_ ?_, ledMoves, r, ⟨?_, hled⟩, readsEarly ?_ ?_ ?_⟩
  · decide +kernel
  · decide +kernel
  · decide +kernel
  · decide +kernel
  · decide +kernel
  · decide +kernel
  · decide +kernel

/-- A memory of two samples, which one burst reads out. -/
def smallParams : Params where
  bram := { depth := 2, aw := 1 }
  dma := { dmaSize := 128#32 }

theorem atRest_smallBoard : (restBoard smallParams).AtRest := by
  refine ⟨by decide +kernel, ?_, ?_⟩
  · constructor <;> decide +kernel
  · constructor <;> decide +kernel

theorem eq_of_select_mem {n : ℕ} {sel sel' : ℤ} {usec : BitVec 32} {tr : Trace} (h : Logs tr)
    (hmem : .call (.select usec) sel' ∈ frameMoves n sel ++ callMoves tr) : sel' = sel := by
  have hcall : ⟨.select usec, sel'⟩ ∈ (frameMoves n sel ++ callMoves tr).flatMap Move.calls :=
    List.mem_flatMap.mpr ⟨_, hmem, List.mem_singleton_self _⟩
  rw [List.flatMap_append, calls_frameMoves, flatMap_callMoves] at hcall
  have hdrain : ⟨.select usec, sel'⟩ ∉ drainCalls sel := by
    rw [drainCalls]
    split_ifs <;> simp
  have hlog : ⟨.select usec, sel'⟩ ∉ tr := fun hlog => h _ hlog
  have hboth : usec = 330#32 + 140#32 * decimationOf oneCtx ∧ sel' = sel := by
    simpa [orderCalls, hdrain, hlog] using hcall
  exact hboth.2

/-- A call that orders a frame and gets it. -/
theorem frame_before_read_smallBoard :
    ∃ moves r frame, FrameCall (fun _ => 0#16) (restBoard smallParams) moves oneCtx r ∧
      ∃ n, moves[n]? = some (.call (.dmaGetFrame 0#32) frame) ∧ ∃ g l, g < l ∧
        moves[g]? = some (.call (.pdhSendCmd (orderWord oneCtx)) ()) ∧
        Latches (fun _ => 0#16) (restBoard smallParams).fabric
          (events (fun _ => 0#16) (restBoard smallParams) (moveAt moves)) l (orderWord oneCtx) ∧
        FrameComplete (fun _ => 0#16) (restBoard smallParams).fabric
          (events (fun _ => 0#16) (restBoard smallParams) (moveAt moves)) l n := by
  have haccepts : ∀ n < (frameMoves 45 1).length,
      (run (Board.step fun _ => 0#16) (restBoard smallParams) (moveAt (frameMoves 45 1)) n).Accepts
        (moveAt (frameMoves 45 1) n) := by
    decide +kernel
  rcases exists_frameCall haccepts (calls_frameMoves 45 1) echoesFrame_oneCtx with
    ⟨frame, tail, r, hlogs, hcall, -⟩
  have hread := moveAt_eq_call.mp (moveAt_append_right (frameMoves 45 1)
    (callMoves (⟨.fopen "dma_log.csv", true⟩ :: ⟨.dmaGetFrame 0#32, frame⟩ :: tail)) 1)
  refine ⟨_, r, frame, hcall, _, hread, frame_before_read hcall atRest_smallBoard ?_ hread⟩
  intro usec sel hmem
  rw [eq_of_select_mem hlogs hmem]
  exact Int.one_pos

end System
end PoundDreverHall
