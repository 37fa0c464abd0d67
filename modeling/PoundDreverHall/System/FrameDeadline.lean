import Mathlib.Tactic.IntervalCases
import PoundDreverHall.System.Delivery
import PoundDreverHall.System.OrderTaken

/-!
# System - `cmd_get_frame` does not time out

The handler waits in {lit}`select` for as long as it expects a frame to take.  On a board at rest
with a low interrupt line this is long enough, if each word stays on the bus for five edges of
{lit}`pdh_clk`, neither clock gets far ahead of the other, and the slave does not hold up the
transfer for too long: the order is taken, the frame is completed, and its interrupt is counted by
the UIO device before the time is over.

Main results:

- Theorem {lit}`unhurried`: the words of a call, as the core sees them.
- Theorem {lit}`reports`: the device has counted the interrupt of the frame.
- Theorem {lit}`select_in_time`: {lit}`select` reports the interrupt, and the frame is complete.
-/

namespace PoundDreverHall
namespace System

open Clocked Device Device.Program PdhTop Requests Server

/-! ## The words of a call -/

/-- The move is a rising edge of {lit}`pdh_clk`. -/
def Move.isPdhEdge : Move → Bool
  | .clock e => e.1.isPdhEdge
  | .call _ _ => false

/-- The edges of {lit}`pdh_clk` in the first {lit}`n` moves. -/
def pdhEdges (ms : ℕ → Move) (n : ℕ) : ℕ :=
  Nat.count (fun k => (ms k).isPdhEdge = true) n

/-- Each word that is sent stays on the bus for five edges of {lit}`pdh_clk`. -/
def SendsApart (moves : List Move) : Prop :=
  ∀ i j w w', i < j → moves[i]? = some (.call (.pdhSendCmd w) ()) →
    moves[j]? = some (.call (.pdhSendCmd w') ()) →
      pdhEdges (moveAt moves) i + 5 ≤ pdhEdges (moveAt moves) j

theorem pdhEdges_succ (ms : ℕ → Move) (n : ℕ) :
    pdhEdges ms (n + 1) = pdhEdges ms n + if (ms n).isPdhEdge = true then 1 else 0 :=
  Nat.count_succ _ n

section Edges

variable {P : Params} {rom : Nco.Rom} {b₀ : Board P} {ms : ℕ → Move}

theorem isPdhEdge_events (n : ℕ) : (events rom b₀ ms n).isPdhEdge = (ms n).isPdhEdge := by
  rw [events]
  cases ms n with
  | clock e => rfl
  | call c resp => cases c <;> rfl

/-- While no word is written, the edges are those of the last one. -/
theorem shownFor_add (rom : Nco.Rom) (b₀ : Board P) (ms : ℕ → Move) {a : ℕ → ℕ} {m n : ℕ}
    (hmn : m ≤ n)
    (hsame : ∀ k, m ≤ k → k ≤ n → a k = a m) :
    shownFor (events rom b₀ ms) a n + pdhEdges ms m =
      shownFor (events rom b₀ ms) a m + pdhEdges ms n := by
  induction n, hmn using Nat.le_induction with
  | base => rfl
  | succ n hmn ih =>
      have hbefore := ih fun k hmk hkn => hsame k hmk (Nat.le_succ_of_le hkn)
      have hkeep : a (n + 1) = a n := by
        rw [hsame (n + 1) (by omega) le_rfl, hsame n hmn n.le_succ]
      rw [shownFor, if_pos hkeep, pdhEdges_succ, isPdhEdge_events]
      split_ifs <;> omega

end Edges

namespace FrameCall

variable {P : Params} {F : Type} {rom : Nco.Rom} {b₀ : Board P} {moves : List Move}
  {ctx : CmdCtx F} {r : Reply F} (h : FrameCall rom b₀ moves ctx r)

/-- The words that have been sent before step {lit}`n`. -/
def sentBefore (moves : List Move) (n : ℕ) : ℕ :=
  (log (fun k => (moveAt moves k).sent) n).length

/-- A step sends no word, or it is the call that sends one. -/
theorem sentBefore_succ (moves : List Move) (n : ℕ) :
    sentBefore moves (n + 1) = sentBefore moves n ∨
      sentBefore moves (n + 1) = sentBefore moves n + 1 ∧
        (∃ w, moves[n]? = some (.call (.pdhSendCmd w) ())) ∧
        (moveAt moves n).isPdhEdge = false := by
  rw [sentBefore, sentBefore, log_succ, List.length_append]
  cases hsent : (moveAt moves n).sent with
  | nil => exact .inl rfl
  | cons w rest =>
      right
      have hcall := eq_send_of_mem_sent (m := moveAt moves n) (w := w) (by simp [hsent])
      have hone : rest = [] := by
        rw [hcall] at hsent
        have hrest := (List.cons.inj hsent).2
        exact hrest.symm
      exact ⟨by simp [hone], ⟨w, moveAt_eq_call.mp hcall⟩, by rw [hcall]; rfl⟩

/-- After a word there are as many edges as it has been shown for. -/
theorem exists_last_send (rom : Nco.Rom) (b₀ : Board P) (n : ℕ) (hn : 0 < sentBefore moves n) :
    ∃ i < n, (∃ w, moves[i]? = some (.call (.pdhSendCmd w) ())) ∧
      shownFor (events rom b₀ (moveAt moves)) (sentBefore moves) n + pdhEdges (moveAt moves) i =
        pdhEdges (moveAt moves) n := by
  induction n with
  | zero => exact absurd hn (lt_irrefl 0)
  | succ n ih =>
      rcases sentBefore_succ moves n with hsame | ⟨hnext, hsend, hedge⟩
      · rw [hsame] at hn
        rcases ih hn with ⟨i, hi, hsend, hshown⟩
        refine ⟨i, Nat.lt_succ_of_lt hi, hsend, ?_⟩
        rw [shownFor, if_pos hsame, pdhEdges_succ, isPdhEdge_events]
        split_ifs <;> omega
      · refine ⟨n, Nat.lt_succ_self n, hsend, ?_⟩
        rw [shownFor, if_neg (by omega), pdhEdges_succ, hedge]
        simp

omit h in
theorem unhurried (rom : Nco.Rom) (b₀ : Board P) (ctx : CmdCtx F) (happart : SendsApart moves) :
    Unhurried (events rom b₀ (moveAt moves))
      (fun n => (b₀.fabric.axiFromPs :: frameWords ctx).getD n 0#32) (sentBefore moves) where
  zero := rfl
  succ n := by
    rcases sentBefore_succ moves n with hsame | ⟨hnext, ⟨w, hsend⟩, hedge⟩
    · exact .inl hsame
    · refine .inr ⟨hnext, (isPdhEdge_events n).trans hedge, fun hpos => ?_⟩
      rcases exists_last_send rom b₀ n hpos with ⟨i, hi, ⟨w', hw'⟩, hshown⟩
      have hfive := happart i n w' w hi hw' hsend
      omega
  high₂ := strobeBit_strobe 1#1 _
  high₄ := strobeBit_strobe 1#1 _

include h

/-! ## The calls before `select` -/

/-- Before {lit}`select` the device is enabled and the words are sent. -/
theorem calls_before_select {k : ℕ} {usec : BitVec 32} {sel : ℤ}
    (hk : moves[k]? = some (.call (.select usec) sel)) :
    log (fun n => (moveAt moves n).calls) k = orderCalls ctx ∧
      usec = 330#32 + 140#32 * decimationOf ctx := by
  rcases performs_frame.mp h.performs with ⟨sel', cb, rest, hcalls, hlog⟩
  obtain ⟨d, hd⟩ := Nat.exists_eq_add_of_lt (List.getElem?_eq_some_iff.mp hk).1
  have hsplit : log (fun n => (moveAt moves n).calls) k ++ ⟨.select usec, sel⟩ ::
      log (fun n => (moveAt moves (k + 1 + n)).calls) d =
        orderCalls ctx ++ ⟨.select (330#32 + 140#32 * decimationOf ctx), sel'⟩ ::
          ⟨.pdhGetCallback, cb⟩ :: (drainCalls sel' ++ rest) := by
    rw [← hcalls, ← log_calls, hd, Nat.add_right_comm, log_add, log_succ, moveAt_eq_call.mpr hk]
    simp [Move.calls]
  have hlogs := (logs_logFrame _ _ _ r hlog).1
  have hbefore : (⟨.select usec, sel⟩ : (c : Call) × c.Response) ∉ orderCalls ctx := by
    simp [orderCalls]
  have hafter : (⟨.select usec, sel⟩ : (c : Call) × c.Response) ∉
      ⟨.pdhGetCallback, cb⟩ :: (drainCalls sel' ++ rest) := by
    intro hmem
    rcases List.mem_cons.mp hmem with heq | hmem
    · cases heq
    · rcases List.mem_append.mp hmem with hdrain | hrest
      · unfold drainCalls at hdrain
        split_ifs at hdrain <;> simp at hdrain
      · exact hlogs _ hrest
  obtain ⟨hcut, hselect, -⟩ := (List.append_cons_inj_of_notMem hbefore hafter).mp hsplit.symm
  refine ⟨hcut.symm, ?_⟩
  cases hselect
  rfl

/-- The first call enables the interrupt; those after it send the words. -/
theorem exists_uioAckIrq {k : ℕ} {usec : BitVec 32} {sel : ℤ}
    (hk : moves[k]? = some (.call (.select usec) sel)) :
    ∃ t < k, moveAt moves t = .call .uioAckIrq () ∧
      log (fun n => (moveAt moves n).calls) t = [] ∧
      ∀ n, t < n → n < k → ∀ e ∈ (moveAt moves n).calls, ∃ w, e = ⟨.pdhSendCmd w, ()⟩ := by
  obtain ⟨hcalls, -⟩ := h.calls_before_select hk
  have hmem : (⟨.uioAckIrq, ()⟩ : (c : Call) × c.Response) ∈
      log (fun n => (moveAt moves n).calls) k := by
    rw [hcalls]
    exact List.mem_cons_self
  rcases mem_log.mp hmem with ⟨t, htk, ht⟩
  have hack : moveAt moves t = .call .uioAckIrq () := by
    cases hm : moveAt moves t with
    | clock e =>
        rw [hm] at ht
        cases ht
    | call c resp =>
        rw [hm] at ht
        cases List.mem_singleton.mp ht
        rfl
  obtain ⟨d, rfl⟩ := Nat.exists_eq_add_of_lt htk
  have hsplit : ([] : Trace) ++ ⟨.uioAckIrq, ()⟩ ::
      (frameWords ctx).map (fun w => ⟨.pdhSendCmd w, ()⟩) =
        log (fun n => (moveAt moves n).calls) t ++ ⟨.uioAckIrq, ()⟩ ::
          log (fun n => (moveAt moves (t + 1 + n)).calls) d := by
    rw [List.nil_append, ← orderCalls, ← hcalls, Nat.add_right_comm, log_add, log_succ, hack]
    simp [Move.calls]
  have hsends : (⟨.uioAckIrq, ()⟩ : (c : Call) × c.Response) ∉
      (frameWords ctx).map fun w => ⟨.pdhSendCmd w, ()⟩ := by
    simp
  obtain ⟨hnone, -, hrest⟩ := (List.append_cons_inj_of_notMem List.not_mem_nil hsends).mp hsplit
  refine ⟨t, htk, hack, hnone.symm, fun n htn hnk e he => ?_⟩
  obtain ⟨j, rfl⟩ := Nat.exists_eq_add_of_lt htn
  have hsent : e ∈ log (fun n => (moveAt moves (t + 1 + n)).calls) d :=
    mem_log.mpr ⟨j, by omega, by rwa [Nat.add_right_comm]⟩
  rw [← hrest, List.mem_map] at hsent
  rcases hsent with ⟨w, -, rfl⟩
  exact ⟨w, rfl⟩

end FrameCall

/-! ## The deadline -/

theorem Paced.mono {es : ℕ → Event} {N horizon horizon' : ℕ} (h : Paced es N horizon')
    (hle : horizon ≤ horizon') : Paced es N horizon :=
  ⟨fun n hn => h.fclk n (hn.trans_le hle), fun n hn => h.pdh n (hn.trans_le hle)⟩

theorem heldUpTo_mono {P : Params} (rom : Nco.Rom) (s : PdhTop.State P) (es : ℕ → Event) :
    Monotone (heldUpTo rom s es) := by
  refine monotone_nat_of_le_succ fun n => ?_
  rw [heldUpTo, heldUpTo, Finset.sum_range_succ]
  exact Nat.le_add_right _ _

/-- A board at rest is ready for a frame. -/
theorem Board.AtRest.started {P : Params} {b : Board P} (h : b.AtRest) (N d : ℕ) :
    Started b.fabric N d := by
  refine ⟨h.rstBit, ?_⟩
  rcases h.settled.exists_at with ⟨p, ⟨rfl, -⟩ | rfl, hat⟩
  · exact ⟨.armed, hat, h.settled.dmaEnableR⟩
  · exact ⟨.stale, hat, trivial⟩

namespace FrameCall

variable {P : Params} {F : Type} {rom : Nco.Rom} {b₀ : Board P} {moves : List Move}
  {ctx : CmdCtx F} {r : Reply F} (h : FrameCall rom b₀ moves ctx r) (hrest : b₀.AtRest)

include h

/-- After the last call that sends a word, all words are sent. -/
theorem sentBefore_eq {k m n : ℕ} {usec : BitVec 32} {sel : ℤ}
    (hk : moves[k]? = some (.call (.select usec) sel))
    (hfirst : ∀ g w, moves[g]? = some (.call (.pdhSendCmd w) ()) → g < m) (hmn : m ≤ n)
    (hnk : n ≤ k) : sentBefore moves n = 4 := by
  have hall : sentBefore moves k = 4 := by
    rw [sentBefore, log_sent, (h.calls_before_select hk).1]
    rfl
  have hkeep : ∀ j, n ≤ j → j ≤ k → sentBefore moves j = sentBefore moves n := by
    intro j hnj hjk
    induction j, hnj using Nat.le_induction with
    | base => rfl
    | succ j hnj ih =>
        rcases sentBefore_succ moves j with hsame | ⟨-, ⟨w, hsend⟩, -⟩
        · rw [hsame, ih (by omega)]
        · have hlate := hfirst j w hsend
          omega
  rw [← hkeep k hnk le_rfl, hall]

include hrest

/-- When the core raises its interrupt, the frame of the call is complete. -/
theorem exists_frameComplete {i n : ℕ}
    (hraise : raises (run (Board.step rom) b₀ (moveAt moves) i).fabric = true) (hin : i ≤ n) :
    ∃ l < i, sentBefore moves l = 4 ∧
      Latches rom b₀.fabric (events rom b₀ (moveAt moves)) l (orderWord ctx) ∧
      FrameComplete rom b₀.fabric (events rom b₀ (moveAt moves)) l n := by
  have hedge := h.dmaReadyEdgeW_of_raises hrest hraise
  rw [(fabric_run hrest.rstBit h.noReset i).1] at hedge
  exact frameComplete_of_edge (h.orderRun hrest) hin hedge

/-- Before the first call the board stays silent. -/
theorem silent_of_no_calls {t : ℕ} (hnone : log (fun k => (moveAt moves k).calls) t = [])
    (n : ℕ) (hn : n ≤ t) : Silent (run (Board.step rom) b₀ (moveAt moves) n) := by
  induction n with
  | zero => exact hrest.silent
  | succ n ih =>
      have hquiet : raises (run (Board.step rom) b₀ (moveAt moves) n).fabric = false := by
        by_contra hraise
        rcases h.exists_frameComplete hrest (eq_true_of_ne_false hraise) le_rfl with
          ⟨l, hl, hsent, -⟩
        have hempty : log (fun k => (moveAt moves k).calls) l = [] :=
          List.prefix_nil.mp (hnone ▸ log_prefix_log _ (by omega))
        rw [sentBefore, log_sent, hempty] at hsent
        cases hsent
      exact (ih (by omega)).step (fabric_run hrest.rstBit h.noReset n).2 rom (h.noReset n) hquiet

/-- The order is taken within five rounds after the last word. -/
theorem exists_capture {k rounds : ℕ} {usec : BitVec 32} {sel : ℤ} {bound : ℕ → ℕ}
    (happart : SendsApart moves)
    (hk : moves[k]? = some (.call (.select usec) sel))
    (hrounds : Rounds (fun c n => (events rom b₀ (moveAt moves) n).ticks c = true) bound rounds)
    (hfirst : ∀ g w, moves[g]? = some (.call (.pdhSendCmd w) ()) → g < bound 0)
    (hfive : 5 ≤ rounds) (hlast : bound rounds ≤ k) :
    Unhurried.Taken (events rom b₀ (moveAt moves)) (sentBefore moves) (bound 5) ∧
      ∃ n ≤ bound 5, (run (PdhTop.step rom) b₀.fabric (events rom b₀ (moveAt moves))
        n).uPdhCore.orch.dmaStateR = .runBram := by
  have hfirst5 : bound 0 ≤ bound 5 := hrounds.bound_le .pdhClk (by omega) hfive
  have hle : bound 5 ≤ k := (hrounds.bound_le .pdhClk hfive le_rfl).trans hlast
  have hsent : ∀ n, bound 0 ≤ n → n ≤ bound 5 → sentBefore moves n = 4 :=
    fun n hn hn5 => h.sentBefore_eq hk hfirst hn (hn5.trans hle)
  have hshown := shownFor_add rom b₀ (moveAt moves) (a := sentBefore moves) hfirst5
    fun n hn hn5 => by rw [hsent n hn hn5, hsent _ le_rfl hfirst5]
  have hticks : pdhEdges (moveAt moves) (bound 0) + 5 ≤ pdhEdges (moveAt moves) (bound 5) := by
    have hcount := hrounds.count_add_le .pdhClk (i := 0) (k := 5) (by omega)
    simpa only [pdhEdges, Event.ticks, isPdhEdge_events, Nat.zero_add] using hcount
  have htaken : Unhurried.Taken (events rom b₀ (moveAt moves)) (sentBefore moves) (bound 5) :=
    ⟨hsent _ hfirst5 le_rfl, by omega⟩
  exact ⟨htaken, Unhurried.exists_taken (h.orderRun hrest) (unhurried rom b₀ ctx happart) htaken⟩

/-- Captures have the decimation of the call. -/
theorem decimates (happart : SendsApart moves) {d : ℕ}
    (hd : BramController.period ((PdhCore.dataW (orderWord ctx)).extractLsb' 0 22) ≤ d)
    (horizon : ℕ) : Decimates rom b₀.fabric (events rom b₀ (moveAt moves)) d horizon := by
  intro n _ hst
  have hrun := h.orderRun hrest
  have hu := unhurried rom b₀ ctx happart
  have hcode := Unhurried.dmaDecimationCodeR_of_taken hrun hu
    (Unhurried.taken_of_runBram hrun hu hst)
  rw [bramInput, PdhCore.dmaDecimationCodeO, hcode]
  exact hd

section Interrupt

variable {d slack rounds k : ℕ} {usec : BitVec 32} {sel : ℤ} {bound : ℕ → ℕ}
  (hdepth : P.bram.depth = 2 ^ P.bram.aw) (hP : P.dma.finalWriteAddr.toNat + 128 < 2 ^ 32)
  (hN : 4 * 31 < 2 ^ P.bram.aw)
  (hd : BramController.period ((PdhCore.dataW (orderWord ctx)).extractLsb' 0 22) ≤ d)
  (happart : SendsApart moves)
  (hk : moves[k]? = some (.call (.select usec) sel))
  (hpaced : Paced (events rom b₀ (moveAt moves)) 31 (k + 1))
  (hrounds : Rounds (fun c n => (events rom b₀ (moveAt moves) n).ticks c = true) bound rounds)
  (hfirst : ∀ g w, moves[g]? = some (.call (.pdhSendCmd w) ()) → g < bound 0)
  (hmany : frameRounds P d slack + 10 ≤ rounds) (hlast : bound rounds ≤ k)
  (hslack : heldUpTo rom b₀.fabric (events rom b₀ (moveAt moves)) k ≤ slack)

include hdepth hP hN hd happart hk hpaced hrounds hfirst hmany hlast hslack

/-- The core raises the interrupt of the frame, for an edge of its clock. -/
theorem exists_irqO :
    ∃ p < bound (frameRounds P d slack + 6), (events rom b₀ (moveAt moves) p).isPdhEdge = true ∧
      PdhCore.irqO (run (PdhTop.step rom) b₀.fabric (events rom b₀ (moveAt moves))
        p).uPdhCore = true := by
  rcases h.exists_capture hrest happart hk hrounds hfirst (by omega) hlast with
    ⟨-, n, hn, hst⟩
  have hins : ∀ j, (events rom b₀ (moveAt moves) j).NoReset :=
    noReset_events hrest.rstBit h.noReset
  have hstarted := hrest.started 31 d
  have hpaced' := Paced.mono hpaced (Nat.le_succ k)
  have hdec := h.decimates hrest happart hd k
  have hheld : ∀ j ≤ k, heldUpTo rom b₀.fabric (events rom b₀ (moveAt moves)) j ≤
      heldUpTo rom b₀.fabric (events rom b₀ (moveAt moves)) n + slack := by
    intro j hj
    have hmono := heldUpTo_mono rom b₀.fabric (events rom b₀ (moveAt moves)) hj
    omega
  rcases exists_completes hstarted hins hdepth hP hN hpaced' hdec hrounds hlast
    (i := 5) (by omega) hn hst hheld with ⟨c, -, hc, hcompletes, hrunAxi⟩
  rw [Nat.add_comm 5] at hc
  have hend := hrounds.bound_le .pdhClk (i := frameRounds P d slack + 5) (j := rounds) (by omega)
    le_rfl
  obtain ⟨hirq, -⟩ :=
    irqO_of_completes hstarted hins hdepth hP hN hpaced' hdec (k := c) (by omega) hcompletes hrunAxi
  -- the interrupt lasts until the next edge
  rcases hrounds (frameRounds P d slack + 5) (by omega) .pdhClk with ⟨p, hle, hlt, htick⟩
  have hedge : ∃ n, c + 1 ≤ n ∧ (events rom b₀ (moveAt moves) n).isPdhEdge = true :=
    ⟨p, by omega, htick⟩
  have hfind := Nat.find_spec hedge
  have hfindle : Nat.find hedge ≤ p := Nat.find_min' hedge ⟨by omega, htick⟩
  have hsame : (run (PdhTop.step rom) b₀.fabric (events rom b₀ (moveAt moves))
      (Nat.find hedge)).uPdhCore = (run (PdhTop.step rom) b₀.fabric
        (events rom b₀ (moveAt moves)) (c + 1)).uPdhCore :=
    uPdhCore_of_no_pdhEdge hins hfind.1 fun i hi hilt =>
      eq_false_of_ne_true fun htrue => Nat.find_min hedge hilt ⟨hi, htrue⟩
  exact ⟨Nat.find hedge, hfindle.trans_lt hlt, hfind.2, by rw [hsame]; exact hirq⟩

variable (hstretch : b₀.fabric.irqStretchR = 0#5) (hsync : b₀.fabric.irqSyncR = 0#3)

include hstretch hsync

/-- The device counts it within three rounds more. -/
theorem reports : (run (Board.step rom) b₀ (moveAt moves) k).uio.Reports := by
  rcases h.exists_irqO hrest hdepth hP hN hd happart hk hpaced hrounds hfirst hmany hlast hslack
    with ⟨p, hp, hedge, hirq⟩
  have hend := hrounds.bound_le .pdhClk (i := frameRounds P d slack + 6 + 3) (j := rounds)
    (by omega) le_rfl
  have hlater := hrounds.bound_le .pdhClk (i := frameRounds P d slack + 6)
    (j := frameRounds P d slack + 6 + 3) (by omega) (by omega)
  have hfar : fclkEdges (events rom b₀ (moveAt moves)) (bound (frameRounds P d slack + 6)) + 3 ≤
      fclkEdges (events rom b₀ (moveAt moves)) (bound (frameRounds P d slack + 6 + 3)) :=
    hrounds.count_add_le .fclk0 (by omega)
  have hnear : fclkEdges (events rom b₀ (moveAt moves)) (p + 1) ≤
      fclkEdges (events rom b₀ (moveAt moves)) (bound (frameRounds P d slack + 6)) :=
    Nat.count_monotone _ (by omega)
  rcases exists_irqF2p_rises rom (fun n hn => hpaced.fclk n (Nat.lt_succ_of_le hn)) hstretch hsync
    (p := p) (m := bound (frameRounds P d slack + 6 + 3)) (by omega) (by omega) hedge hirq
    (by omega) with ⟨q, l, hql, hlm, hirq', hhigh, hlow⟩
  -- the device is enabled before the words are sent
  rcases h.exists_uioAckIrq hk with ⟨t, htk, hack, hnone, hsends⟩
  have hsilent := h.silent_of_no_calls hrest hnone
  have htq : t < q := by
    by_contra hqt
    have hirqR := (hsilent _ (Nat.le_of_not_lt hqt)).irqR
    rw [(fabric_run hrest.rstBit h.noReset q).1] at hirqR
    rw [PdhCore.irqO, hirqR] at hirq'
    cases hirq'
  have harmed : (run (Board.step rom) b₀ (moveAt moves) (t + 1)).uio.Armed := by
    have hraised := (hsilent t le_rfl).raised
    have hcount := (hsilent t le_rfl).count
    rw [run_succ, hack]
    simp only [Board.step, Uio.write, hraised]
    exact ⟨rfl, hcount⟩
  refine reports_run harmed (fun j htj hjk => hsends j htj hjk) (r := l) (by omega) (by omega) ?_
  rw [lineRises, (fabric_run hrest.rstBit h.noReset l).1,
    (fabric_run hrest.rstBit h.noReset (l + 1)).1, hhigh, hlow]
  rfl

end Interrupt

end FrameCall

/-- The field of the word has the decimation of the call. -/
theorem extractLsb'_orderWord {F : Type} (ctx : CmdCtx F) :
    (PdhCore.dataW (orderWord ctx)).extractLsb' 0 22 = (decimationOf ctx).setWidth 22 := by
  have hstrobe := BitField.get_set_of_disjoint (f := PdhCmdT.strobe) (g := PdhCmdT.decimation)
    (.inr (show 0 + 22 ≤ 30 by omega)) 1#1 (getFrameWord (decimationOf ctx) (ctx.uintArgs 1))
  have hframe := BitField.get_set_of_disjoint (f := PdhCmdT.frameCode) (g := PdhCmdT.decimation)
    (.inr (le_refl 22)) ((ctx.uintArgs 1).setWidth 4)
    (PdhCmdT.decimation.set ((decimationOf ctx).setWidth 22) (cmdWord .getFrame))
  rw [dataW_extractLsb' _ (by omega)]
  exact (hstrobe.trans hframe).trans (BitField.get_set PdhCmdT.decimation _ _)

theorem period_orderWord {F : Type} {ctx : CmdCtx F} (hdec : (decimationOf ctx).toNat < 2 ^ 22) :
    BramController.period ((PdhCore.dataW (orderWord ctx)).extractLsb' 0 22) ≤
      (decimationOf ctx).toNat := by
  have hpos : 1 ≤ (decimationOf ctx).toNat := by
    rw [decimationOf]
    split_ifs with hzero
    · decide
    · simpa [BitVec.lt_def, Nat.one_le_iff_ne_zero, Nat.pos_iff_ne_zero] using hzero
  have hfield : ((decimationOf ctx).setWidth 22).toNat = (decimationOf ctx).toNat := by
    rw [BitVec.toNat_setWidth]
    exact Nat.mod_eq_of_lt hdec
  rw [extractLsb'_orderWord, BramController.period]
  split_ifs with hzero
  · rw [hzero] at hfield
    simp only [BitVec.toNat_ofNat, Nat.zero_mod] at hfield
    omega
  · exact hfield.le

/-- On a board at rest `cmd_get_frame` does not time out: by the end of the time that it allows
after its last word, {lit}`select` reports the interrupt, and the frame of the call is complete. -/
theorem select_in_time {F : Type} {rom : Nco.Rom} {b₀ : Board {}} {moves : List Move}
    {ctx : CmdCtx F} {r : Reply F} (h : FrameCall rom b₀ moves ctx r) (hrest : b₀.AtRest)
    (hstretch : b₀.fabric.irqStretchR = 0#5) (hsync : b₀.fabric.irqSyncR = 0#3)
    (hdec : (decimationOf ctx).toNat < 2 ^ 22) (happart : SendsApart moves) {k : ℕ}
    {usec : BitVec 32} {sel : ℤ} (hk : moves[k]? = some (.call (.select usec) sel))
    (hpaced : Paced (events rom b₀ (moveAt moves)) 31 (k + 1))
    (hslack : heldUpTo rom b₀.fabric (events rom b₀ (moveAt moves)) k ≤ 22700)
    {bound : ℕ → ℕ} (hfirst : ∀ g w, moves[g]? = some (.call (.pdhSendCmd w) ()) → g < bound 0)
    (hrounds : Rounds (fun c n => (events rom b₀ (moveAt moves) n).ticks c = true) bound
      (125 * usec.toNat)) (hlast : bound (125 * usec.toNat) ≤ k) :
    0 < sel ∧ ∃ l < k,
      Latches rom b₀.fabric (events rom b₀ (moveAt moves)) l (orderWord ctx) ∧
      FrameComplete rom b₀.fabric (events rom b₀ (moveAt moves)) l k := by
  obtain ⟨-, husec⟩ := h.calls_before_select hk
  have htime : usec.toNat = 330 + 140 * (decimationOf ctx).toNat := by
    rw [husec, BitVec.toNat_add, BitVec.toNat_mul]
    simp only [BitVec.toNat_ofNat]
    omega
  have hmany : frameRounds {} (decimationOf ctx).toNat 22700 + 10 ≤ 125 * usec.toNat := by
    have htimeout : frameRounds {} (decimationOf ctx).toNat 22710 ≤ _ :=
      frameRounds_le_timeout _ (by omega)
    rw [htime]
    simp only [frameRounds] at htimeout ⊢
    omega
  have hreports := h.reports hrest rfl (by decide) (by decide) (period_orderWord hdec) happart hk
    hpaced hrounds hfirst hmany hlast hslack hstretch hsync
  have haccepts := h.accepts k (List.getElem?_eq_some_iff.mp hk).1
  rw [moveAt_eq_call.mpr hk] at haccepts
  have hreadable := hreports.readable
  rcases exists_raise hrest.rstBit h.noReset hrest.silent hreadable with ⟨i, hik, hraise⟩
  rcases h.exists_frameComplete hrest hraise hik.le with ⟨l, hli, -, hlatch, hcomplete⟩
  exact ⟨haccepts.mpr hreadable, l, hli.trans hik, hlatch, hcomplete⟩

/-! ### A call that waits -/

section Accepts

variable {P : Params} {rom : Nco.Rom} {b : Board P}

/-- The board makes all moves of a list. -/
def AcceptsAll (rom : Nco.Rom) (b : Board P) (moves : List Move) : Prop :=
  ∀ n < moves.length, (run (Board.step rom) b (moveAt moves) n).Accepts (moveAt moves n)

theorem AcceptsAll.append {pre rest : List Move} (hpre : AcceptsAll rom b pre)
    (hrest : AcceptsAll rom (run (Board.step rom) b (moveAt pre) pre.length) rest) :
    AcceptsAll rom b (pre ++ rest) := by
  intro n hn
  rcases Nat.lt_or_ge n pre.length with hlt | hge
  · rw [moveAt_append hlt, run_congr fun k hk => moveAt_append (hk.trans hlt) _]
    exact hpre n hlt
  · obtain ⟨k, rfl⟩ := Nat.exists_eq_add_of_le hge
    rw [List.length_append] at hn
    have htail := hrest k (Nat.lt_of_add_lt_add_left hn)
    have hright : (fun j => moveAt (pre ++ rest) (pre.length + j)) = moveAt rest :=
      funext fun j => moveAt_append_right pre rest j
    rw [moveAt_append_right, run_add, hright, run_congr fun j hj => moveAt_append hj rest]
    exact htail

/-- Calls that every board answers. -/
theorem acceptsAll_callMoves {tr : Trace} (h : ∀ e ∈ tr, ∀ b : Board P, b.Answers e.1 e.2) :
    AcceptsAll rom b (callMoves tr) := by
  intro n hn
  rcases exists_moveAt_callMoves hn with ⟨e, he, hmove⟩
  rw [hmove]
  exact h e he _

theorem acceptsAll_cons {m : Move} {rest : List Move} (hm : b.Accepts m)
    (hrest : AcceptsAll rom (Board.step rom m b) rest) : AcceptsAll rom b (m :: rest) := by
  have hone : AcceptsAll rom b [m] := by
    intro n hn
    obtain rfl : n = 0 := by simpa using hn
    exact hm
  exact hone.append hrest

end Accepts

/-- A call that has waited in {lit}`select` goes on to its end. -/
theorem exists_frameCall_of_wait {P : Params} {F : Type} {rom : Nco.Rom} {b₀ : Board P}
    {ctx : CmdCtx F} {pre : List Move} (haccepts : AcceptsAll rom b₀ pre)
    (hcalls : pre.flatMap Move.calls = orderCalls ctx) :
    ∃ sel rest r, FrameCall rom b₀
      (pre ++ .call (.select (330#32 + 140#32 * decimationOf ctx)) sel :: rest) ctx r := by
  let b := run (Board.step rom) b₀ (moveAt pre) pre.length
  let sel : ℤ := if b.uio.readable then 1 else 0
  let cb := PdhCore.axiToPsO b.fabric.uPdhCore
  rcases exists_performs (fun c : Call => (default : c.Response))
    (logFrame (ctx.uintArgs 1) (getFrameReply (decimationOf ctx) (ctx.uintArgs 1) cb)) with
    ⟨tr, r, hlog⟩
  have hlogs := (logs_logFrame _ _ tr r hlog).1
  have hsel : 0 < sel ↔ b.uio.readable = true := by
    simp only [sel]
    split_ifs with hreadable
    · simp [hreadable]
    · simp [hreadable]
  have hdrain : ∀ e ∈ tr, ∀ b : Board P, b.Answers e.1 e.2 :=
    fun e he b => answers_of_isLogCall (hlogs e he) b e.2
  have htail : AcceptsAll rom b (callMoves (drainCalls sel ++ tr)) := by
    unfold drainCalls
    split_ifs with hpos
    · refine acceptsAll_cons (hsel.mp hpos) (acceptsAll_callMoves ?_)
      exact List.forall_mem_cons.mpr ⟨fun _ => trivial, hdrain⟩
    · exact acceptsAll_callMoves hdrain
  refine ⟨sel, .call .pdhGetCallback cb :: callMoves (drainCalls sel ++ tr), r, ?_, ?_⟩
  · exact haccepts.append (acceptsAll_cons hsel (acceptsAll_cons rfl htail))
  · refine performs_frame.mpr ⟨sel, cb, tr, ?_, hlog⟩
    rw [List.flatMap_append, hcalls, List.flatMap_cons, List.flatMap_cons, flatMap_callMoves]
    rfl

/-- A call that waits for the whole time, while both clocks tick. -/
def waitMoves (n : ℕ) : List Move :=
  .call .uioAckIrq () :: sending (frameWords oneCtx) ++ edges n

/-- It makes calls that send a word or none, and edges of both clocks. -/
theorem mem_waitMoves {n : ℕ} {m : Move} (hm : m ∈ waitMoves n) :
    (∃ c resp, m = .call c resp ∧ ∀ b : Board {}, b.Accepts m) ∨
      m = .clock ⟨.bothClk quietAdc readySlave, rfl⟩ := by
  rcases List.mem_append.mp hm with hcalls | hedges
  · rcases List.mem_cons.mp hcalls with rfl | hsending
    · exact .inl ⟨_, _, rfl, fun _ => trivial⟩
    · rcases List.mem_flatMap.mp hsending with ⟨w, -, hword⟩
      rcases List.mem_cons.mp hword with rfl | hedge
      · exact .inl ⟨_, _, rfl, fun _ => trivial⟩
      · exact .inr (List.eq_of_mem_replicate hedge)
  · exact .inr (List.eq_of_mem_replicate hedges)

theorem acceptsAll_waitMoves (rom : Nco.Rom) (b : Board {}) (n : ℕ) :
    AcceptsAll rom b (waitMoves n) := by
  intro k hk
  rw [moveAt, List.getD_eq_getElem _ _ hk]
  rcases mem_waitMoves (List.getElem_mem hk) with ⟨c, resp, -, haccepts⟩ | hclock
  · exact haccepts _
  · rw [hclock]
    trivial

theorem calls_waitMoves (n : ℕ) : (waitMoves n).flatMap Move.calls = orderCalls oneCtx := by
  have hedges : (edges n).flatMap Move.calls = [] :=
    List.flatMap_eq_nil_iff.mpr fun m hm => by rw [List.eq_of_mem_replicate hm]; rfl
  rw [waitMoves, List.flatMap_append, hedges, List.append_nil]
  rfl

section Wait

variable {n : ℕ} (rest : List Move)

theorem length_waitMoves (n : ℕ) : (waitMoves n).length = 29 + n := by
  rw [waitMoves, List.length_append, edges, List.length_replicate]
  rfl

/-- In each of its moves both clocks tick, or none does. -/
theorem events_waitMoves (b : Board {}) {k : ℕ} (hk : k < 29 + n) :
    (events (fun _ => 0#16) b (moveAt (waitMoves n ++ rest)) k).isPdhEdge =
        (events (fun _ => 0#16) b (moveAt (waitMoves n ++ rest)) k).isFclkEdge ∧
      (events (fun _ => 0#16) b (moveAt (waitMoves n ++ rest)) k).heldUp
        (run (PdhTop.step fun _ => 0#16) b.fabric
          (events (fun _ => 0#16) b (moveAt (waitMoves n ++ rest))) k) = 0 := by
  rw [← length_waitMoves] at hk
  have hmem : moveAt (waitMoves n ++ rest) k ∈ waitMoves n := by
    rw [moveAt_append hk, moveAt, List.getD_eq_getElem _ _ hk]
    exact List.getElem_mem hk
  have hevent : events (fun _ => 0#16) b (moveAt (waitMoves n ++ rest)) k =
      (moveAt (waitMoves n ++ rest) k).event
        (run (Board.step fun _ => 0#16) b (moveAt (waitMoves n ++ rest)) k).fabric := rfl
  rcases mem_waitMoves hmem with ⟨c, resp, hcall, -⟩ | hclock
  · rw [hevent, hcall]
    cases c <;> exact ⟨rfl, rfl⟩
  · rw [hevent, hclock]
    exact ⟨rfl, heldUp_readySlave _ _⟩

theorem waited_waitMoves (b : Board {}) {k : ℕ} (hk : k ≤ 29 + n) :
    waited (fun k => (events (fun _ => 0#16) b (moveAt (waitMoves n ++ rest)) k).isPdhEdge)
        (fun k => (events (fun _ => 0#16) b (moveAt (waitMoves n ++ rest)) k).isFclkEdge) k = 0 ∧
      waited (fun k => (events (fun _ => 0#16) b (moveAt (waitMoves n ++ rest)) k).isFclkEdge)
        (fun k => (events (fun _ => 0#16) b (moveAt (waitMoves n ++ rest)) k).isPdhEdge) k = 0 := by
  constructor
  · exact waited_eq_zero fun j hj => (events_waitMoves rest b (hj.trans_le hk)).1
  · exact waited_eq_zero fun j hj => (events_waitMoves rest b (hj.trans_le hk)).1.symm

/-- From the last word on both clocks tick. -/
theorem moveAt_waitMoves {k : ℕ} (hk : 23 ≤ k) (hkn : k < 29 + n) :
    moveAt (waitMoves n ++ rest) k = .clock ⟨.bothClk quietAdc readySlave, rfl⟩ := by
  rw [moveAt_append (by rwa [length_waitMoves]), waitMoves]
  rcases Nat.lt_or_ge k 29 with hlt | hge
  · rw [moveAt_append hlt]
    interval_cases k <;> rfl
  · obtain ⟨j, rfl⟩ := Nat.exists_eq_add_of_le hge
    have hright := moveAt_append_right (.call .uioAckIrq () :: sending (frameWords oneCtx))
      (edges n) j
    refine hright.trans ?_
    rw [moveAt, List.getD_eq_getElem _ _ (by rw [edges, List.length_replicate]; omega)]
    exact List.getElem_replicate _

/-- The beginning of the call, with the words. -/
theorem moveAt_words {k : ℕ} (hk : k < 29) :
    moveAt (waitMoves n ++ rest) k = moveAt (waitMoves 0) k := by
  rw [moveAt_append (by rw [length_waitMoves]; omega), waitMoves, moveAt_append hk, waitMoves,
    moveAt_append hk]

/-- The move sends a word. -/
def Move.isSend : Move → Bool
  | .call (.pdhSendCmd _) _ => true
  | _ => false

theorem sends_waitMoves_apart :
    ∀ j < 23, (moveAt (waitMoves 0) j).isSend = true →
      ∀ i < j, (moveAt (waitMoves 0) i).isSend = true →
        pdhEdges (moveAt (waitMoves 0)) i + 5 ≤ pdhEdges (moveAt (waitMoves 0)) j := by
  decide +kernel

theorem pdhEdges_waitMoves {k : ℕ} (hk : k ≤ 29) :
    pdhEdges (moveAt (waitMoves n ++ rest)) k = pdhEdges (moveAt (waitMoves 0)) k := by
  induction k with
  | zero => rfl
  | succ k ih => rw [pdhEdges_succ, pdhEdges_succ, ih (by omega), moveAt_words rest hk]

theorem sentBefore_waitMoves : FrameCall.sentBefore (waitMoves n ++ rest) 23 = 4 := by
  have hwords : log (fun k => (moveAt (waitMoves n ++ rest) k).sent) 23 =
      log (fun k => (moveAt (waitMoves 0) k).sent) 23 :=
    log_eq_of_forall fun k hk => congrArg Move.sent (moveAt_words rest (by omega))
  rw [FrameCall.sentBefore, hwords]
  rfl

variable {F : Type} {ctx : CmdCtx F} {b₀ : Board {}} {r : Reply F}
  (h : FrameCall (fun _ => 0#16) b₀ (waitMoves n ++ rest) ctx r)

include h

theorem lt_of_send {g : ℕ} {w : BitVec 32}
    (hg : (waitMoves n ++ rest)[g]? = some (.call (.pdhSendCmd w) ())) : g < 23 := by
  by_contra hlate
  have hsent : (moveAt (waitMoves n ++ rest) g).sent = [w] := by
    rw [moveAt_eq_call.mpr hg]
    rfl
  have hmono := (log_prefix_log (fun k => (moveAt (waitMoves n ++ rest) k).sent)
    (Nat.le_of_not_lt hlate)).length_le
  have hle := (h.sent_prefix_words (g + 1)).length_le
  have hfour := sentBefore_waitMoves (n := n) rest
  rw [FrameCall.sentBefore] at hfour
  rw [log_succ, List.length_append, hsent] at hle
  simp only [frameWords, strobed, List.length_cons, List.length_nil, List.flatMap_cons,
    List.flatMap_nil, List.length_append] at hle
  omega

theorem sendsApart_waitMoves : SendsApart (waitMoves n ++ rest) := by
  intro i j w w' hij hi hj
  have hj23 := lt_of_send rest h hj
  rw [pdhEdges_waitMoves rest (by omega), pdhEdges_waitMoves rest (by omega)]
  have hsend : ∀ {g : ℕ} {w : BitVec 32}, g < 23 →
      (waitMoves n ++ rest)[g]? = some (.call (.pdhSendCmd w) ()) →
      (moveAt (waitMoves 0) g).isSend = true := by
    intro g w hg hw
    rw [← moveAt_words rest (show g < 29 by omega), moveAt_eq_call.mpr hw]
    rfl
  exact sends_waitMoves_apart j hj23 (hsend hj23 hj) i hij (hsend (hij.trans hj23) hi)

end Wait

/-- A frame that is requested after a reset, with edges of both clocks for the whole time. -/
theorem select_in_time_restBoard :
    ∃ (moves : List Move) (r : Reply ℚ) (k : ℕ) (usec : BitVec 32) (sel : ℤ),
      FrameCall (fun _ => 0#16) (restBoard {}) moves oneCtx r ∧
        moves[k]? = some (.call (.select usec) sel) ∧ 0 < sel := by
  obtain ⟨n, hn⟩ : ∃ n, n = 58744 := ⟨_, rfl⟩
  rcases exists_frameCall_of_wait (acceptsAll_waitMoves _ (restBoard {}) n)
    (calls_waitMoves n) with ⟨sel, rest, r, hcall⟩
  obtain ⟨usec, husec⟩ : ∃ usec, usec = 330#32 + 140#32 * decimationOf oneCtx := ⟨_, rfl⟩
  rw [← husec] at hcall
  have hrounds : 125 * usec.toNat = 6 + n := by
    rw [husec, hn]
    decide
  have hk : (waitMoves n ++ .call (.select usec) sel :: rest)[29 + n]? =
      some (.call (.select usec) sel) := by
    rw [← length_waitMoves]
    simp
  obtain ⟨bound, hbound⟩ : ∃ bound : ℕ → ℕ, ∀ i, bound i = 23 + i := ⟨_, fun _ => rfl⟩
  have hfirst : ∀ g w, (waitMoves n ++ .call (.select usec) sel :: rest)[g]? =
      some (.call (.pdhSendCmd w) ()) → g < bound 0 := by
    intro g w hg
    rw [hbound]
    exact lt_of_send _ hcall hg
  refine ⟨_, r, _, usec, sel, hcall, hk, ?_⟩
  refine (select_in_time hcall atRest_restBoard (by decide +kernel) (by decide +kernel)
    (by decide) (sendsApart_waitMoves _ hcall) hk ⟨?_, ?_⟩ ?_ hfirst ?_
    (by rw [hbound]; omega)).1
  · intro j hj
    rw [(waited_waitMoves _ _ (by omega)).1]
    omega
  · intro j hj
    rw [(waited_waitMoves _ _ (by omega)).2]
    omega
  · refine (Finset.sum_eq_zero fun j hj => ?_).le.trans (Nat.zero_le _)
    exact (events_waitMoves _ _ (Finset.mem_range.mp hj)).2
  · intro i hi c
    have hmove := moveAt_waitMoves (n := n) (.call (.select usec) sel :: rest) (k := 23 + i)
      (by omega) (by omega)
    have hevent : events (fun _ => 0#16) (restBoard {})
        (moveAt (waitMoves n ++ .call (.select usec) sel :: rest)) (23 + i) =
          .bothClk quietAdc readySlave := by
      rw [events, hmove]
      rfl
    refine ⟨23 + i, (hbound i).le, by rw [hbound]; omega, ?_⟩
    change Event.ticks _ c = true
    rw [hevent]
    cases c <;> rfl

end System
end PoundDreverHall
