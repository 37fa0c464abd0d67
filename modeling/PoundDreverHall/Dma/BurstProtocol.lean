import PoundDreverHall.Dma.BurstTrace

/-!
# DMA controller - burst protocol and coverage

For every placement of the frame buffer and every slave behaviour, the
controller speaks the AXI write protocol in complete sixteen-beat bursts,
retries a burst that was answered with an error, and acknowledges every burst
of the frame exactly once and in order before it reports ready again.

Main results:

- Theorem {lit}`Covers.step`: one edge of a transfer keeps the acknowledged
  bursts a prefix of the frame.
- Theorem {lit}`covers_of_inTransfer`: the same along a transfer of any length.
- Theorem {lit}`dma_burst_protocol`: protocol, stability, retry and coverage
  in every run after reset.
-/

namespace PoundDreverHall
namespace DmaController

open AxiWrite Clocked

/-! ## The frame buffer -/

/-- The parameters describe a non-empty buffer of whole bursts below the top of
the address space. -/
structure Params.Fits (P : Params) : Prop where
  size_pos : 0 < P.dmaSize.toNat
  size_dvd : 128 ∣ P.dmaSize.toNat
  end_lt : P.hp0BaseAddr.toNat + P.dmaSize.toNat < 2 ^ 32

/-- Number of bursts in a frame. -/
def Params.bursts (P : Params) : ℕ :=
  P.dmaSize.toNat / 128

/-- Address of burst {lit}`k` of the frame. -/
def Params.burstAddr (P : Params) (k : ℕ) : BitVec 32 :=
  P.hp0BaseAddr + BitVec.ofNat 32 (128 * k)

@[simp]
theorem Params.burstAddr_zero (P : Params) : P.burstAddr 0 = P.hp0BaseAddr := by
  simp [Params.burstAddr]

theorem Params.burstAddr_succ (P : Params) (k : ℕ) :
    P.burstAddr (k + 1) = P.burstAddr k + addrInc := by
  rw [Params.burstAddr, Params.burstAddr, Nat.mul_add, BitVec.ofNat_add, ← BitVec.add_assoc]
  rfl

/-- Advancing from the base address visits the burst addresses. -/
theorem Params.iterate_addrInc (P : Params) (k : ℕ) :
    (· + addrInc)^[k] P.hp0BaseAddr = P.burstAddr k := by
  induction k with
  | zero => simp
  | succ k ih => rw [Function.iterate_succ_apply', ih, Params.burstAddr_succ]

section Fits

variable {P : Params}

theorem Params.Fits.size_eq (hP : P.Fits) : P.dmaSize.toNat = 128 * P.bursts := by
  rw [Params.bursts, Nat.mul_div_cancel' hP.size_dvd]

/-- Burst addresses up to the end of the buffer do not wrap. -/
theorem Params.Fits.burstAddr_toNat (hP : P.Fits) {k : ℕ} (hk : k ≤ P.bursts) :
    (P.burstAddr k).toNat = P.hp0BaseAddr.toNat + 128 * k := by
  have hend := hP.end_lt
  have hsize := hP.size_eq
  rw [Params.burstAddr, BitVec.toNat_add, BitVec.toNat_ofNat,
    Nat.mod_eq_of_lt (show 128 * k < 2 ^ 32 by omega), Nat.mod_eq_of_lt (by omega)]

/-- The comparison that ends a transfer singles out the last burst. -/
theorem Params.Fits.final_lt_iff (hP : P.Fits) {k : ℕ} (hk : k < P.bursts) :
    P.finalWriteAddr < P.burstAddr k + addrInc ↔ k + 1 = P.bursts := by
  have hend := hP.end_lt
  have hsize := hP.size_eq
  have hpos := hP.size_pos
  have hfinal : P.finalWriteAddr.toNat = P.hp0BaseAddr.toNat + P.dmaSize.toNat - 1 := by
    rw [Params.finalWriteAddr, BitVec.toNat_sub_of_le, BitVec.toNat_add_of_lt hend]
    · rfl
    · rw [BitVec.le_def, BitVec.toNat_add_of_lt hend]
      change 1 ≤ _
      omega
  rw [← Params.burstAddr_succ, BitVec.lt_def, hfinal, hP.burstAddr_toNat (by omega)]
  omega

end Fits

/-! ## Coverage along a transfer -/

/-- The handshakes of a transfer so far are bursts from the base address on,
and the acknowledged ones are the first bursts of the frame: all of them when
the controller is idle again, fewer before. -/
def Covers (P : Params) (s : State) (evs : List (ℕ × BusEvent)) : Prop :=
  ∃ bs cur, evs = traceEvents bs cur ∧ Tracks s cur ∧
    Follows respOkay (· + addrInc) P.hp0BaseAddr bs s.addrR ∧
    if s.stateR = .idle then (okayAddrs respOkay bs).length = P.bursts
    else (okayAddrs respOkay bs).length < P.bursts

section Step

variable {P : Params} {t : ℕ} {i : Input} {s : State}

/-- A transfer starts at the base address with nothing on the bus. -/
theorem covers_start (hP : P.Fits) (hs : s.rst = .released) (hi : i.rstI = false)
    (hidle : s.stateR = .idle) (hedge : enableSyncEdgeW s = true) :
    Covers P (step P i s) [] := by
  have hstate : (step P i s).stateR = .setAddrAwaitAck := by
    simp [step_stateR hs hi, nextStateW, hidle, hedge]
  have haddr : (step P i s).addrR = P.hp0BaseAddr := by
    simp [step_addrR hs hi, nextAddrW, hidle]
  have hpos : 0 < P.bursts := by
    have := hP.size_eq
    have := hP.size_pos
    omega
  refine ⟨[], none, rfl, by simp [Tracks, hstate], haddr.symm, ?_⟩
  simpa [hstate] using hpos

/-- Without an OKAY response the address register of a busy controller stays. -/
theorem nextAddrW_of_busy (hbusy : s.stateR ≠ .idle)
    (hresp : ¬(s.stateR = .awaitResp ∧ i.mAxiBvalid = true ∧ i.mAxiBresp = respOkay)) :
    nextAddrW P i s = s.addrR := by
  unfold nextAddrW
  split <;> simp_all

/-- Without an OKAY response a busy controller stays busy. -/
theorem nextStateW_ne_idle (hbusy : s.stateR ≠ .idle)
    (hresp : ¬(s.stateR = .awaitResp ∧ i.mAxiBvalid = true ∧ i.mAxiBresp = respOkay)) :
    nextStateW P i s ≠ .idle := by
  unfold nextStateW
  split <;> simp_all <;> split_ifs <;> simp

/-- One edge of a transfer. -/
theorem Covers.step {evs : List (ℕ × BusEvent)} (hP : P.Fits) (hs : s.rst = .released)
    (hi : i.rstI = false) (hbusy : s.stateR ≠ .idle) (h : Covers P s evs) :
    Covers P (DmaController.step P i s) (evs ++ busEvents t i s) := by
  obtain ⟨bs, cur, hevs, htracks, hfollows, hcount⟩ := h
  rw [if_neg hbusy] at hcount
  obtain ⟨bs', cur', hobs, htracks'⟩ := htracks.step (P := P) (t := t) hs hi bs
  have hnext := step_stateR (P := P) hs hi
  have haddr := step_addrR (P := P) hs hi
  refine ⟨bs', cur', by rw [hobs.traceEvents, ← hevs], htracks', ?_⟩
  rw [hnext, haddr]
  -- only an OKAY response moves the address or can end the transfer
  by_cases hokay : s.stateR = .awaitResp ∧ i.mAxiBvalid = true ∧ i.mAxiBresp = respOkay
  · obtain ⟨hstate, hvalid, hresp⟩ := hokay
    obtain ⟨-, hlast⟩ := hfollows.okayAddrs respOkay (· + addrInc)
    rw [P.iterate_addrInc] at hlast
    cases hobs with
    | quiet cur _ hquiet => exact absurd ⟨hstate, hvalid⟩ hquiet
    | accept haccept _ => rw [hstate] at haccept; contradiction
    | beat o _ hbeat _ _ => rw [hstate] at hbeat; contradiction
    | respond o hlen _ _ hoaddr =>
        have hmove : nextAddrW P i s = s.addrR + addrInc := by
          simp [nextAddrW, hstate, hvalid, hresp]
        have hcount' : (okayAddrs respOkay
            (bs ++ [o.respond i.mAxiBresp t hlen])).length =
              (okayAddrs respOkay bs).length + 1 := by
          rw [okayAddrs_append]
          simp [okayAddrs, OpenBurst.respond, hresp]
        have hdone := hP.final_lt_iff hcount
        rw [← hlast] at hdone
        refine ⟨?_, ?_⟩
        · have hstep := hfollows.concat respOkay (· + addrInc)
            (o.respond i.mAxiBresp t hlen) hoaddr
          simpa [Burst.continuesAt, OpenBurst.respond, hresp, hoaddr, hmove] using hstep
        · rw [hcount']
          by_cases hfinal : P.finalWriteAddr < s.addrR + addrInc
          · simpa [nextStateW, hstate, hvalid, hresp, hfinal] using hdone.mp hfinal
          · have hne : (okayAddrs respOkay bs).length + 1 ≠ P.bursts :=
              fun heq => hfinal (hdone.mpr heq)
            simp [nextStateW, hstate, hvalid, hresp, hfinal]
            omega
  · rw [nextAddrW_of_busy hbusy hokay, if_neg (nextStateW_ne_idle hbusy hokay)]
    cases hobs with
    | quiet cur _ _ => exact ⟨hfollows, hcount⟩
    | accept _ _ => exact ⟨hfollows, hcount⟩
    | beat o _ _ _ _ => exact ⟨hfollows, hcount⟩
    | respond o hlen hstate hvalid hoaddr =>
        have herr : i.mAxiBresp ≠ respOkay := fun hresp => hokay ⟨hstate, hvalid, hresp⟩
        have hstep := hfollows.concat respOkay (· + addrInc)
          (o.respond i.mAxiBresp t hlen) hoaddr
        rw [okayAddrs_append]
        refine ⟨?_, ?_⟩
        · simpa [Burst.continuesAt, OpenBurst.respond, herr, hoaddr] using hstep
        · simpa [okayAddrs, OpenBurst.respond, herr] using hcount

end Step

/-! ## Runs -/

section Runs

variable (P : Params) (s₀ : State) (ins : ℕ → Input)

/-- Handshakes of the first {lit}`n` cycles from cycle {lit}`t₀` on. -/
def busLog (t₀ n : ℕ) : List (ℕ × BusEvent) :=
  log (fun k => busEvents (t₀ + k) (ins (t₀ + k)) (run (step P) s₀ ins (t₀ + k))) n

/-- A transfer is started by an enable edge in cycle {lit}`t₀` and the
controller has been busy in the {lit}`n` cycles that follow it. -/
structure InTransfer (t₀ n : ℕ) : Prop where
  idle : (run (step P) s₀ ins t₀).stateR = .idle
  edge : enableSyncEdgeW (run (step P) s₀ ins t₀) = true
  busy : ∀ k, 1 ≤ k → k ≤ n → (run (step P) s₀ ins (t₀ + k)).stateR ≠ .idle

variable {P s₀ ins}

/-- Along a transfer of any length, and in the first cycle after it, the
acknowledged bursts are the first ones of the frame. -/
theorem covers_of_inTransfer (hP : P.Fits) (hs : s₀.rst = .released)
    (hins : ∀ t, (ins t).rstI = false) {t₀ n : ℕ} (h : InTransfer P s₀ ins t₀ n) :
    Covers P (run (step P) s₀ ins (t₀ + (n + 1))) (busLog P s₀ ins t₀ (n + 1)) := by
  have hrst := run_rst P hs hins
  induction n with
  | zero =>
      have hquiet : busEvents t₀ (ins t₀) (run (step P) s₀ ins t₀) = [] := by
        simp [busEvents, mAxiAwvalid, mAxiWvalid, mAxiBready, h.idle]
      have hlog : busLog P s₀ ins t₀ (0 + 1) = [] := by
        simp [busLog, log_succ, hquiet]
      rw [hlog]
      exact covers_start hP (hrst t₀) (hins t₀) h.idle h.edge
  | succ n ih =>
      have hprev := ih ⟨h.idle, h.edge, fun k h1 hk => h.busy k h1 (Nat.le_succ_of_le hk)⟩
      have hbusy := h.busy (n + 1) (Nat.le_add_left 1 n) le_rfl
      rw [busLog, log_succ]
      exact hprev.step hP (hrst _) (hins _) hbusy

/-- Every busy cycle belongs to a transfer. -/
theorem exists_inTransfer (hs : s₀.rst = .released) (hidle : s₀.stateR = .idle)
    (hins : ∀ t, (ins t).rstI = false) {t : ℕ}
    (hbusy : (run (step P) s₀ ins t).stateR ≠ .idle) :
    ∃ t₀ n, t = t₀ + (n + 1) ∧ InTransfer P s₀ ins t₀ (n + 1) := by
  have hrst := run_rst P hs hins
  induction t with
  | zero => exact absurd hidle hbusy
  | succ t ih =>
      by_cases hprev : (run (step P) s₀ ins t).stateR = .idle
      · refine ⟨t, 0, rfl, hprev, ?_, ?_⟩
        · by_contra hedge
          apply hbusy
          rw [run_succ, step_stateR (hrst t) (hins t)]
          simp [nextStateW, hprev, hedge]
        · intro k h1 hk
          obtain rfl : k = 1 := by omega
          exact hbusy
      · obtain ⟨t₀, n, rfl, htransfer⟩ := ih hprev
        refine ⟨t₀, n + 1, by omega, htransfer.idle, htransfer.edge, ?_⟩
        intro k h1 hk
        rcases Nat.lt_or_ge k (n + 2) with hlt | hge
        · exact htransfer.busy k h1 (by omega)
        · obtain rfl : k = n + 2 := by omega
          exact hbusy

/-- The handshakes of any run from an idle controller form a trace. -/
theorem exists_traceEvents (hs : s₀.rst = .released) (hidle : s₀.stateR = .idle)
    (hins : ∀ t, (ins t).rstI = false) (n : ℕ) :
    ∃ bs cur, busLog P s₀ ins 0 n = traceEvents bs cur ∧
      Tracks (run (step P) s₀ ins n) cur := by
  have hrst := run_rst P hs hins
  induction n with
  | zero => exact ⟨[], none, rfl, by simp [Tracks, hidle]⟩
  | succ n ih =>
      obtain ⟨bs, cur, hlog, htracks⟩ := ih
      obtain ⟨bs', cur', hobs, htracks'⟩ :=
        htracks.step (P := P) (t := n) (hrst n) (hins n) bs
      refine ⟨bs', cur', ?_, htracks'⟩
      rw [hobs.traceEvents, ← hlog, busLog, log_succ, Nat.zero_add]
      rfl

/-- A waiting address stays on the bus. -/
theorem awaddr_stable (hs : s₀.rst = .released) (hins : ∀ t, (ins t).rstI = false) {t : ℕ}
    (hvalid : mAxiAwvalid (run (step P) s₀ ins t) = true)
    (hwait : (ins t).mAxiAwready = false) :
    mAxiAwvalid (run (step P) s₀ ins (t + 1)) = true ∧
      mAxiAwaddr (run (step P) s₀ ins (t + 1)) = mAxiAwaddr (run (step P) s₀ ins t) := by
  have hrst := run_rst P hs hins t
  have hstate : (run (step P) s₀ ins t).stateR = .setAddrAwaitAck := by
    simpa [mAxiAwvalid] using hvalid
  rw [run_succ]
  simp [mAxiAwvalid, mAxiAwaddr, step_stateR hrst (hins t), step_addrR hrst (hins t),
    nextStateW, nextAddrW, hstate, hwait]

/-- A waiting beat stays on the bus, with its last flag. -/
theorem wdata_stable (hs : s₀.rst = .released) (hins : ∀ t, (ins t).rstI = false) {t : ℕ}
    (hvalid : mAxiWvalid (run (step P) s₀ ins t) = true)
    (hwait : (ins t).mAxiWready = false) :
    mAxiWvalid (run (step P) s₀ ins (t + 1)) = true ∧
      mAxiWdata (run (step P) s₀ ins (t + 1)) = mAxiWdata (run (step P) s₀ ins t) ∧
      mAxiWlast (run (step P) s₀ ins (t + 1)) = mAxiWlast (run (step P) s₀ ins t) := by
  have hrst := run_rst P hs hins t
  have hstate : (run (step P) s₀ ins t).stateR = .setDataAwaitAck := by
    simpa [mAxiWvalid] using hvalid
  rw [run_succ]
  simp [mAxiWvalid, mAxiWdata, mAxiWlast, lastBeat, step_stateR hrst (hins t),
    step_dataR hrst (hins t), step_beatR hrst (hins t), nextStateW, nextDataW, nextBeatW,
    hstate, hwait]

/-- The acknowledged addresses of a finished transfer are those of the frame. -/
theorem Covers.okayAddrs_eq {s : State} {evs : List (ℕ × BusEvent)}
    (h : Covers P s evs) (hidle : s.stateR = .idle) :
    ∃ bs : List BusBurst, evs = traceEvents bs none ∧
      okayAddrs respOkay bs = (List.range P.bursts).map P.burstAddr := by
  obtain ⟨bs, cur, hevs, htracks, hfollows, hcount⟩ := h
  have hcur : cur = none := by simpa [Tracks, hidle] using htracks
  rw [if_pos hidle] at hcount
  obtain ⟨haddrs, -⟩ := hfollows.okayAddrs respOkay (· + addrInc)
  refine ⟨bs, by rw [hevs, hcur], ?_⟩
  rw [haddrs, hcount]
  simp only [P.iterate_addrInc]

/-- The response that lets the controller become ready is the OKAY of the last
burst. -/
theorem Covers.last_response {i : Input} {s : State} {evs : List (ℕ × BusEvent)}
    (hP : P.Fits) (hs : s.rst = .released) (hi : i.rstI = false) (h : Covers P s evs)
    (hbusy : s.stateR ≠ .idle)
    (hdone : (DmaController.step P i s).stateR = .idle) :
    s.stateR = .awaitResp ∧ i.mAxiBvalid = true ∧ i.mAxiBresp = respOkay ∧
      s.addrR = P.burstAddr (P.bursts - 1) := by
  rw [step_stateR hs hi] at hdone
  have hresp : s.stateR = .awaitResp ∧ i.mAxiBvalid = true ∧ i.mAxiBresp = respOkay := by
    by_contra hnone
    exact nextStateW_ne_idle hbusy hnone hdone
  refine ⟨hresp.1, hresp.2.1, hresp.2.2, ?_⟩
  obtain ⟨bs, cur, -, -, hfollows, hcount⟩ := h
  rw [if_neg hbusy] at hcount
  obtain ⟨-, hlast⟩ := hfollows.okayAddrs respOkay (· + addrInc)
  rw [P.iterate_addrInc] at hlast
  have hfinal : P.finalWriteAddr < s.addrR + addrInc := by
    by_contra hnot
    simp [nextStateW, hresp, hnot] at hdone
  rw [hlast] at hfinal ⊢
  have hcount' := (hP.final_lt_iff hcount).mp hfinal
  rw [← hcount', Nat.add_sub_cancel]

/-- In every run a busy controller becomes idle only with the OKAY response of
the last burst. -/
theorem response_of_done (hP : P.Fits) (hs : s₀.rst = .released) (hidle : s₀.stateR = .idle)
    (hins : ∀ t, (ins t).rstI = false) {t : ℕ}
    (hbusy : (run (step P) s₀ ins t).stateR ≠ .idle)
    (hdone : (run (step P) s₀ ins (t + 1)).stateR = .idle) :
    (run (step P) s₀ ins t).stateR = .awaitResp ∧ (ins t).mAxiBvalid = true ∧
      (ins t).mAxiBresp = respOkay ∧
      (run (step P) s₀ ins t).addrR = P.burstAddr (P.bursts - 1) := by
  have hrst := run_rst P hs hins
  obtain ⟨t₀, n, rfl, htransfer⟩ := exists_inTransfer hs hidle hins hbusy
  have hcovers := covers_of_inTransfer hP hs hins (n := n)
    ⟨htransfer.idle, htransfer.edge, fun k h1 hk => htransfer.busy k h1 (by omega)⟩
  exact hcovers.last_response hP (hrst _) (hins _) hbusy hdone

/-! ## The protocol of a run -/

variable (P s₀ ins)

/-- What the bus sees of a controller that starts in state {lit}`s₀`. -/
structure BurstProtocol : Prop where
  /-- Each accepted address is followed by exactly sixteen accepted beats
  before the next response, the sixteenth one flagged as the last. -/
  bursts_complete : ∀ n, ∃ (bs : List BusBurst) (cur : Option BusOpenBurst),
    busLog P s₀ ins 0 n = traceEvents bs cur
  awaddr_stable : ∀ t, mAxiAwvalid (run (step P) s₀ ins t) = true →
    (ins t).mAxiAwready = false →
    mAxiAwvalid (run (step P) s₀ ins (t + 1)) = true ∧
      mAxiAwaddr (run (step P) s₀ ins (t + 1)) = mAxiAwaddr (run (step P) s₀ ins t)
  wdata_stable : ∀ t, mAxiWvalid (run (step P) s₀ ins t) = true →
    (ins t).mAxiWready = false →
    mAxiWvalid (run (step P) s₀ ins (t + 1)) = true ∧
      mAxiWdata (run (step P) s₀ ins (t + 1)) = mAxiWdata (run (step P) s₀ ins t) ∧
      mAxiWlast (run (step P) s₀ ins (t + 1)) = mAxiWlast (run (step P) s₀ ins t)
  /-- Whatever happens on the bus happens in a transfer started by an enable
  edge. -/
  transfer_of_busy : ∀ t, (run (step P) s₀ ins t).stateR ≠ .idle →
    ∃ t₀ n, t = t₀ + (n + 1) ∧ InTransfer P s₀ ins t₀ (n + 1)
  /-- A burst that was answered with an error is retried at the same address. -/
  retried : ∀ t₀ n, InTransfer P s₀ ins t₀ n →
    ∃ (bs : List BusBurst) (cur : Option BusOpenBurst),
      busLog P s₀ ins t₀ (n + 1) = traceEvents bs cur ∧
      (bs.IsChain fun b b' => b.resp ≠ respOkay → b'.addr = b.addr) ∧
      ∀ b, bs.getLast? = some b → b.resp ≠ respOkay →
        mAxiAwaddr (run (step P) s₀ ins (t₀ + (n + 1))) = b.addr ∧
          ∀ o, cur = some o → o.addr = b.addr
  /-- Between the enable edge and the return to idle every burst of the frame
  is acknowledged once, in order. -/
  covered : ∀ t₀ n, InTransfer P s₀ ins t₀ n →
    (run (step P) s₀ ins (t₀ + (n + 1))).stateR = .idle →
    ∃ bs : List BusBurst, busLog P s₀ ins t₀ (n + 1) = traceEvents bs none ∧
      okayAddrs respOkay bs = (List.range P.bursts).map P.burstAddr
  /-- The controller reports ready again only with the OKAY response of the
  last burst. -/
  ready_after_last : ∀ t, dmaReadyO (run (step P) s₀ ins t) = false →
    dmaReadyO (run (step P) s₀ ins (t + 1)) = true →
    mAxiBready (run (step P) s₀ ins t) = true ∧ (ins t).mAxiBvalid = true ∧
      (ins t).mAxiBresp = respOkay ∧
      mAxiAwaddr (run (step P) s₀ ins t) = P.burstAddr (P.bursts - 1)

variable {P s₀ ins}

/-- Burst protocol and coverage, in every run after reset and for every slave. -/
theorem dma_burst_protocol (P : Params) (hpos : 0 < P.dmaSize.toNat)
    (hdvd : 128 ∣ P.dmaSize.toNat)
    (hend : P.hp0BaseAddr.toNat + P.dmaSize.toNat < 2 ^ 32)
    (ins : ℕ → Input) (hins : ∀ t, (ins t).rstI = false) :
    BurstProtocol P (afterReset P) ins := by
  have hP : P.Fits := ⟨hpos, hdvd, hend⟩
  have hs : (afterReset P).rst = .released := rfl
  have hidle : (afterReset P).stateR = .idle := rfl
  have hrst := run_rst P hs hins
  refine
    { bursts_complete := ?_
      awaddr_stable := fun t => awaddr_stable hs hins
      wdata_stable := fun t => wdata_stable hs hins
      transfer_of_busy := fun t => exists_inTransfer hs hidle hins
      retried := ?_
      covered := ?_
      ready_after_last := ?_ }
  · intro n
    obtain ⟨bs, cur, hlog, -⟩ := exists_traceEvents hs hidle hins n
    exact ⟨bs, cur, hlog⟩
  · intro t₀ n htransfer
    obtain ⟨bs, cur, hlog, htracks, hfollows, -⟩ := covers_of_inTransfer hP hs hins htransfer
    refine ⟨bs, cur, hlog, hfollows.isChain_retry respOkay (· + addrInc), ?_⟩
    intro b hlast herr
    have haddr := hfollows.last_retry respOkay (· + addrInc) hlast herr
    exact ⟨haddr, fun o ho => (htracks.addr_eq ho).trans haddr⟩
  · intro t₀ n htransfer hdone
    exact (covers_of_inTransfer hP hs hins htransfer).okayAddrs_eq hdone
  · intro t hbusy hready
    have hbusy' : (run (step P) (afterReset P) ins t).stateR ≠ .idle := by
      simpa [dmaReadyO] using hbusy
    have hready' : (run (step P) (afterReset P) ins (t + 1)).stateR = .idle := by
      simpa [dmaReadyO] using hready
    obtain ⟨hstate, hvalid, hresp, haddr⟩ := response_of_done hP hs hidle hins hbusy' hready'
    exact ⟨by simp [mAxiBready, hstate], hvalid, hresp, haddr⟩

/-- An input of a slave that is always ready. -/
def readyInput : Input := ⟨false, true, true, true, respOkay, true, 0#64⟩

/-- The parameters of `pdh_top` and a slave that is always ready, from two edges after the release
of {lit}`rst_i` on. -/
theorem dma_burst_protocol_pdhTop :
    BurstProtocol {} (step {} readyInput (step {} readyInput (resetState {})))
      (fun _ => readyInput) := by
  rw [step_step_resetState {} rfl rfl]
  exact dma_burst_protocol {} (by decide) (by decide) (by decide) _ (fun _ => rfl)

end Runs

end DmaController
end PoundDreverHall
