import PoundDreverHall.Frame.Commands
import PoundDreverHall.Frame.Progress

/-!
# Frames - how much is left to do

A capture takes as many edges of {lit}`pdh_clk` as its addresses and its decimation say, and a
transfer takes eighteen edges of {lit}`fclk0` for each burst and those at which the slave holds it
up.  Levels on their way between the two clocks take an edge for each register.

Main results:

- Theorem {lit}`cyclesLeft_step`: one clock period of a capture.
- Theorem {lit}`edgesLeft_step`: one edge of a transfer, for any answers of the slave.
- Theorem {lit}`lag_fclkEdge`: one edge of a low enable level on its way to the DMA controller.
-/

namespace PoundDreverHall

/-! ## Captures -/

namespace BramController

variable {P : Params} {s : State P} {i : Input}

/-- Clock periods for an address: the decimation code, or a whole round of the count. -/
def period (code : BitVec 22) : ℕ :=
  if code = 0#22 then 2 ^ 22 else code.toNat

/-- A decimation code of 0 counts as 1. -/
theorem period_pos (code : BitVec 22) : 0 < period code := by
  unfold period
  split_ifs with hzero
  · omega
  · by_contra hpos
    exact hzero (BitVec.eq_of_toNat_eq (show code.toNat = 0 by omega))

theorem period_le (code : BitVec 22) : period code ≤ 2 ^ 22 := by
  have hcode := code.isLt
  unfold period
  split_ifs <;> omega

/-- Clock periods until the last address is reached, and the rest of its own. -/
def cyclesLeft (s : State P) : ℕ :=
  (2 ^ P.aw - 1 - s.addrR.toNat) * period s.decimationCodeR +
    if s.countR = 0#22 then 0 else period s.decimationCodeR - s.countR.toNat

/-- The count goes round in the period. -/
theorem toNat_nextCountW (hst : s.stateR = .captureData)
    (hcount : s.countR.toNat < period s.decimationCodeR) :
    (nextCountW s).toNat =
      if s.countR.toNat + 1 = period s.decimationCodeR then 0 else s.countR.toNat + 1 := by
  have hlt := s.countR.isLt
  have hcode := s.decimationCodeR.isLt
  have hwide : (s.countR.setWidth 32).toNat = s.countR.toNat := by
    rw [BitVec.toNat_setWidth]
    exact Nat.mod_eq_of_lt (by omega)
  simp only [nextCountW, hst, BitVec.le_def, hwide]
  by_cases hzero : s.decimationCodeR = 0#22
  · -- the comparison has 32 bits, so it never stops the count
    have hpred : ((0#22).setWidth 32 - 1#32).toNat = 2 ^ 32 - 1 := rfl
    simp only [period, hzero, if_true, hpred] at hcount ⊢
    rw [if_neg (by omega), BitVec.toNat_add]
    simp only [BitVec.toNat_ofNat]
    split_ifs <;> omega
  · have hpos : 0 < s.decimationCodeR.toNat := by
      have hperiod := period_pos s.decimationCodeR
      rwa [period, if_neg hzero] at hperiod
    have hpred : (s.decimationCodeR.setWidth 32 - 1#32).toNat = s.decimationCodeR.toNat - 1 := by
      rw [BitVec.toNat_sub_of_le]
      · simp only [BitVec.toNat_setWidth, BitVec.toNat_ofNat]
        omega
      · rw [BitVec.le_def]
        simp only [BitVec.toNat_setWidth, BitVec.toNat_ofNat]
        omega
    simp only [period, if_neg hzero, hpred] at hcount ⊢
    split_ifs with hwrap hlast hlast
    · rfl
    · omega
    · omega
    · rw [BitVec.toNat_add]
      simp only [BitVec.toNat_ofNat]
      omega

/-- The address after a clock period of a capture that is not at its last address. -/
theorem toNat_nextAddrW (hdepth : P.depth = 2 ^ P.aw) (hst : s.stateR = .captureData)
    (hlast : lastAddr s = false) :
    s.addrR.toNat + 1 < 2 ^ P.aw ∧
      (nextAddrW s).toNat = s.addrR.toNat + if s.countR = 0#22 then 1 else 0 := by
  have hlt := s.addrR.isLt
  have hne : s.addrR.toNat ≠ P.depth - 1 := by
    simpa [lastAddr] using hlast
  have hone : (1 : BitVec P.aw).toNat = 1 := Nat.mod_eq_of_lt (show 1 < 2 ^ P.aw by omega)
  refine ⟨by omega, ?_⟩
  simp only [nextAddrW, hst]
  split_ifs
  · rw [BitVec.toNat_add, hone]
    exact Nat.mod_eq_of_lt (by omega)
  · rfl

/-- One clock period: the first one of an address pays for the period of the next address. -/
theorem slot_step {last a c d : ℕ} (ha : a < last) (hc : c < d) :
    (last - (a + if c = 0 then 1 else 0)) * d +
        (if (if c + 1 = d then 0 else c + 1) = 0 then 0
          else d - if c + 1 = d then 0 else c + 1) + 1 =
      (last - a) * d + if c = 0 then 0 else d - c := by
  by_cases hzero : c = 0
  · subst hzero
    have hsplit : last - a = last - (a + 1) + 1 := by omega
    by_cases hone : 0 + 1 = d
    · subst hone
      simp only [if_true]
      omega
    · simp only [if_neg hone, if_true, Nat.succ_ne_zero, if_false]
      rw [hsplit, Nat.succ_mul]
      omega
  · by_cases hwrap : c + 1 = d
    · simp only [if_pos hwrap, if_neg hzero, if_true, Nat.add_zero]
      omega
    · simp only [if_neg hwrap, if_neg hzero, Nat.succ_ne_zero, if_false, Nat.add_zero]
      omega

/-- A cycle of a capture that is not over is one cycle less. -/
theorem cyclesLeft_step (hdepth : P.depth = 2 ^ P.aw) (hrst : s.rst = .released)
    (hi : i.rstI = false) (hst : s.stateR = .captureData) (hlast : lastAddr s = false)
    (hcount : s.countR.toNat < period s.decimationCodeR) :
    cyclesLeft (step i s) + 1 = cyclesLeft s := by
  obtain ⟨hroom, haddr⟩ := toNat_nextAddrW hdepth hst hlast
  have hnext := toNat_nextCountW hst hcount
  have hzero : ∀ x : BitVec 22, x = 0#22 ↔ x.toNat = 0 := fun x =>
    ⟨fun h => by rw [h]; rfl, fun h => BitVec.eq_of_toNat_eq h⟩
  simp only [hzero] at haddr
  rw [step_capturing hrst hi hst hlast]
  simp only [cyclesLeft, hzero, haddr, hnext]
  exact slot_step (by omega) hcount

/-- No capture takes longer than a full frame. -/
theorem cyclesLeft_le (s : State P) :
    cyclesLeft s ≤ 2 ^ P.aw * period s.decimationCodeR := by
  have hlt := s.addrR.isLt
  have hsplit : 2 ^ P.aw - s.addrR.toNat = 2 ^ P.aw - 1 - s.addrR.toNat + 1 := by omega
  calc cyclesLeft s
      ≤ (2 ^ P.aw - 1 - s.addrR.toNat) * period s.decimationCodeR + period s.decimationCodeR := by
        unfold cyclesLeft
        split_ifs <;> omega
    _ = (2 ^ P.aw - s.addrR.toNat) * period s.decimationCodeR := by rw [hsplit, Nat.succ_mul]
    _ ≤ 2 ^ P.aw * period s.decimationCodeR := Nat.mul_le_mul_right _ (Nat.sub_le _ _)

/-- The counter of a capture stays below the period. -/
theorem countR_step (hrst : s.rst = .released) (hi : i.rstI = false)
    (hst : s.stateR = .captureData) (hlast : lastAddr s = false)
    (hcount : s.countR.toNat < period s.decimationCodeR) :
    (step i s).countR.toNat < period (step i s).decimationCodeR := by
  have hperiod := period_pos s.decimationCodeR
  rw [step_capturing hrst hi hst hlast]
  simp only [toNat_nextCountW hst hcount]
  split_ifs <;> omega

/-- A capture starts at the first address. -/
theorem step_start (hsync : s.rst.rstSyncR = false) (hi : i.rstI = false)
    (hidle : s.stateR ≠ .captureData) (hstart : (step i s).stateR = .captureData) :
    (step i s).addrR = 0 ∧ (step i s).countR = 0#22 ∧
      (step i s).decimationCodeR = i.decimationCodeI := by
  refine ⟨?_, ?_, decimationCodeR_of_start hi hsync hidle hstart⟩ <;>
    cases hst : s.stateR <;>
      simp_all [step, posedge, nextAddrW, nextCountW]

/-- A capture starts at the first address. -/
theorem cyclesLeft_start (hsync : s.rst.rstSyncR = false) (hi : i.rstI = false)
    (hidle : s.stateR ≠ .captureData) (hstart : (step i s).stateR = .captureData) :
    cyclesLeft (step i s) = (2 ^ P.aw - 1) * period i.decimationCodeI := by
  rcases step_start hsync hi hidle hstart with ⟨haddr, hcount, hcode⟩
  simp [cyclesLeft, haddr, hcount, hcode]

end BramController

/-! ## Transfers -/

namespace DmaController

variable {P : Params} {s : State} {i : Input}

/-- Bursts after the one at an address. -/
def burstsAfter (P : Params) (addr : BitVec 32) : ℕ :=
  if P.finalWriteAddr < addr + addrInc then 0
  else (P.finalWriteAddr.toNat - (addr + addrInc).toNat) / 128 + 1

/-- Edges until the response of the burst under way, with the edge that takes it. -/
def burstEdges (s : State) : ℕ :=
  match s.stateR with
  | .idle => 0
  | .setAddrAwaitAck => 18
  | .setDataAwaitAck => (burstLen.setWidth 5 - s.beatR).toNat + 2
  | .awaitResp => 1

/-- Edges until the end of the transfer. -/
def edgesLeft (P : Params) (s : State) : ℕ :=
  burstsAfter P s.addrR * 18 + burstEdges s

/-- Edges of a whole transfer. -/
def transferEdges (P : Params) : ℕ :=
  burstsAfter P P.hp0BaseAddr * 18 + 18

/-- What the answer of the slave costs: an edge, or a burst that has to be sent again. -/
def heldUp (i : Input) (s : State) : ℕ :=
  match s.stateR with
  | .idle => 0
  | .setAddrAwaitAck => if i.mAxiAwready then 0 else 1
  | .setDataAwaitAck => if i.mAxiWready then 0 else 1
  | .awaitResp => if i.mAxiBvalid then if i.mAxiBresp = respOkay then 0 else 18 else 1

/-- A burst further is a burst less. -/
theorem burstsAfter_add {addr : BitVec 32} (hP : P.finalWriteAddr.toNat + 128 < 2 ^ 32)
    (hmore : ¬P.finalWriteAddr < addr + addrInc) :
    burstsAfter P (addr + addrInc) + 1 = burstsAfter P addr := by
  have hle : (addr + addrInc).toNat ≤ P.finalWriteAddr.toNat := by
    simpa [BitVec.lt_def] using hmore
  have hadd : (addr + addrInc + addrInc).toNat = (addr + addrInc).toNat + 128 := by
    rw [BitVec.toNat_add]
    exact Nat.mod_eq_of_lt (by simp only [addrInc, BitVec.toNat_ofNat] at hle ⊢; omega)
  simp only [burstsAfter, BitVec.lt_def, hadd] at hmore ⊢
  split_ifs <;> omega

/-- One edge of a transfer that goes on. -/
theorem edgesLeft_step (hP : P.finalWriteAddr.toNat + 128 < 2 ^ 32) (hrst : s.rst = .released)
    (hi : i.rstI = false) (hst : s.stateR ≠ .idle) (hnext : nextStateW P i s ≠ .idle) :
    edgesLeft P (step P i s) + 1 = edgesLeft P s + heldUp i s := by
  have hstate := step_stateR (P := P) hrst hi
  have haddr := step_addrR (P := P) hrst hi
  have hbeat := step_beatR (P := P) hrst hi
  cases hcase : s.stateR with
  | idle => exact absurd hcase hst
  | setAddrAwaitAck =>
      simp only [nextStateW, hcase] at hstate
      simp only [nextAddrW, hcase] at haddr
      simp only [nextBeatW, hcase] at hbeat
      simp only [edgesLeft, burstEdges, heldUp, hstate, haddr, hbeat, hcase]
      split_ifs
      · rfl
      · rfl
  | setDataAwaitAck =>
      simp only [nextStateW, hcase] at hstate
      simp only [nextAddrW, hcase] at haddr
      simp only [nextBeatW, hcase] at hbeat
      simp only [edgesLeft, burstEdges, heldUp, hstate, haddr, hbeat, hcase]
      by_cases hready : i.mAxiWready = true
      · by_cases hlast : s.beatR = burstLen.setWidth 5
        · simp [hready, lastBeat, hlast]
        · have hless : (burstLen.setWidth 5 - (s.beatR + 1#5)).toNat + 1 =
              (burstLen.setWidth 5 - s.beatR).toNat := by
            simp only [burstLen] at hlast ⊢
            bv_omega
          simp only [hready, lastBeat, beq_eq_false_iff_ne.mpr hlast, Bool.and_false,
            Bool.false_eq_true, if_false, if_true]
          omega
      · simp [hready]
  | awaitResp =>
      simp only [nextStateW, hcase] at hstate hnext
      simp only [nextAddrW, hcase] at haddr
      simp only [edgesLeft, burstEdges, heldUp, hstate, haddr, hcase]
      by_cases hvalid : i.mAxiBvalid = true
      · by_cases hokay : i.mAxiBresp = respOkay
        · by_cases hmore : P.finalWriteAddr < s.addrR + addrInc
          · simp [hvalid, hokay, hmore] at hnext
          · have hfewer := burstsAfter_add hP hmore
            simp only [hvalid, hokay, hmore, if_true, if_false, beq_self_eq_true, Bool.and_true]
            omega
        · simp only [hvalid, hokay, if_true, if_false, beq_eq_false_iff_ne.mpr hokay,
            Bool.and_false, Bool.false_eq_true]
      · simp [hvalid]

/-- A transfer that runs is not over. -/
theorem edgesLeft_pos (hst : s.stateR ≠ .idle) : 0 < edgesLeft P s := by
  have hburst : 0 < burstEdges s := by
    unfold burstEdges
    split <;> first | omega | simp_all
  exact Nat.add_pos_right _ hburst

/-- One edge is left when the last response arrives. -/
theorem edgesLeft_of_last (hst : s.stateR ≠ .idle) (hnext : nextStateW P i s = .idle) :
    edgesLeft P s = 1 := by
  cases hcase : s.stateR with
  | idle => exact absurd hcase hst
  | setAddrAwaitAck =>
      simp only [nextStateW, hcase] at hnext
      split_ifs at hnext
  | setDataAwaitAck =>
      simp only [nextStateW, hcase] at hnext
      split_ifs at hnext
  | awaitResp =>
      simp only [nextStateW, hcase] at hnext
      split_ifs at hnext with hvalid hokay hlast
      simp [edgesLeft, burstEdges, hcase, burstsAfter, hlast]

/-- A transfer starts with all of its edges. -/
theorem edgesLeft_start (hrst : s.rst = .released) (hi : i.rstI = false)
    (hidle : s.stateR = .idle) (hstart : nextStateW P i s ≠ .idle) :
    edgesLeft P (step P i s) = transferEdges P := by
  have hstate := step_stateR (P := P) hrst hi
  have haddr := step_addrR (P := P) hrst hi
  simp only [nextStateW, hidle] at hstate hstart
  simp only [nextAddrW, hidle] at haddr
  split_ifs at hstate hstart with hedge
  · simp [edgesLeft, burstEdges, hstate, haddr, transferEdges]
  · exact absurd rfl hstart

end DmaController

/-! ## Levels on their way -/

namespace PdhCore.Orchestrator

/-- Edges of {lit}`pdh_clk` until a high ready level is in the last register. -/
def readyLeft (o : Orchestrator) : ℕ :=
  if o.dmaReady1ff = false then 3
  else if o.dmaReady2ff = false then 2
  else if o.dmaReady3ff = false then 1
  else 0

/-- Edges of {lit}`pdh_clk` until the orchestrator has seen the end of the capture. -/
def acquireLeft (o : Orchestrator) : ℕ :=
  if o.bramEdgeAcquiredR = true then 0
  else if o.bramReadyR = true then 1
  else 2

theorem readyLeft_le (o : Orchestrator) : o.readyLeft ≤ 3 := by
  unfold readyLeft
  split_ifs <;> omega

theorem acquireLeft_le (o : Orchestrator) : o.acquireLeft ≤ 2 := by
  unfold acquireLeft
  split_ifs <;> omega

/-- The ready level has arrived. -/
theorem readyLeft_eq_zero {o : Orchestrator} (h : o.readyLeft = 0) :
    o.dmaReady1ff = true ∧ o.dmaReady2ff = true ∧ o.dmaReady3ff = true := by
  unfold readyLeft at h
  split_ifs at h with h1 h2 h3
  exact ⟨by simpa using h1, by simpa using h2, by simpa using h3⟩

/-- The edge of the capture has been noticed. -/
theorem acquireLeft_eq_zero {o : Orchestrator} (h : o.acquireLeft = 0) :
    o.bramEdgeAcquiredR = true := by
  unfold acquireLeft at h
  split_ifs at h with hacquired
  exact hacquired

end PdhCore.Orchestrator

namespace PdhTop

open Clocked

namespace Control

variable {c : Control}

/-- Edges of {lit}`fclk0` until a low enable level is everywhere, after a reset or a transfer. -/
def lag (c : Control) : ℕ :=
  c.dmaRst.rstPipe1R.toNat + c.dmaRst.rstSyncR.toNat + c.enable1ff.toNat + c.enable2ff.toNat +
    c.enable3ff.toNat + c.dmaEdge.prevD.toNat

/-- The enable level is low everywhere. -/
def EnableLow (c : Control) : Prop :=
  c.orch.dmaEnableR = false ∧ c.lag = 0

/-- The enable level is on its way to the DMA controller and has not arrived. -/
def EnableClimbs (c : Control) : Prop :=
  c.orch.dmaEnableR = true ∧ c.dmaRst = .released ∧ c.dmaEdge.prevD = false ∧
    (c.enable3ff = true → c.enable2ff = true) ∧ (c.enable2ff = true → c.enable1ff = true)

/-- The orchestrator has seen the end of the capture, or is about to. -/
def EdgePending (c : Control) : Prop :=
  c.orch.bramEdgeAcquiredR = true ∨ c.orch.bramReadyR = false ∨
    c.orch.uBramEdgeDetector.prevD = false

/-- Edges of {lit}`fclk0` before the one that starts the transfer. -/
def enableLeft (c : Control) : ℕ :=
  if c.enable1ff = false then 3
  else if c.enable2ff = false then 2
  else if c.enable3ff = false then 1
  else 0

/-- A reset pipeline that has let go is empty. -/
theorem dmaRst_eq (hc : Sound c) (hsync : c.dmaRst.rstSyncR = false) : c.dmaRst = .released := by
  have hpipe : c.dmaRst.rstPipe1R = false := by
    by_contra hpipe
    rw [hc.dmaPipe (by simpa using hpipe)] at hsync
    cases hsync
  cases hrst : c.dmaRst with
  | mk sync pipe =>
      rw [hrst] at hsync hpipe
      cases hsync
      cases hpipe
      rfl

/-- The enable level moves on edges of the other clock. -/
theorem lag_pdhEdge (last : Bool) : (c.pdhEdge last).lag = c.lag :=
  rfl

/-- An edge of {lit}`fclk0` brings a low level further. -/
theorem lag_fclkEdge (hc : Sound c) (hfalls : EnableFalls c) (hlow : c.orch.dmaEnableR = false)
    (done : Bool) : (c.fclkEdge done).lag = c.lag - 1 := by
  obtain ⟨h1, h2, h3, h4⟩ := hfalls
  cases hsync : c.dmaRst.rstSyncR with
  | true =>
      obtain ⟨he1, he2, he3, hedge, -⟩ := hc.dmaReset hsync
      simp [lag, Control.fclkEdge, hsync, he1, he2, he3, hedge, PosedgeDetector.cleared]
  | false =>
      simp only [lag, Control.fclkEdge, dmaRst_eq hc hsync, hlow, ResetSync.released,
        ResetSync.clock_false, Bool.not_false, Bool.true_and, Bool.toNat_false]
      revert h2 h3 h4
      cases c.enable1ff <;> cases c.enable2ff <;> cases c.enable3ff <;>
        cases c.dmaEdge.prevD <;> simp

/-- There are four places on the way. -/
theorem lag_le (hc : Sound c) : c.lag ≤ 4 := by
  cases hsync : c.dmaRst.rstSyncR with
  | true =>
      obtain ⟨he1, he2, he3, hedge, -⟩ := hc.dmaReset hsync
      have hpipe := Bool.toNat_le c.dmaRst.rstPipe1R
      simp only [lag, hsync, he1, he2, he3, hedge, PosedgeDetector.cleared, Bool.toNat_true,
        Bool.toNat_false]
      omega
  | false =>
      rw [lag, dmaRst_eq hc hsync]
      have h1 := Bool.toNat_le c.enable1ff
      have h2 := Bool.toNat_le c.enable2ff
      have h3 := Bool.toNat_le c.enable3ff
      have h4 := Bool.toNat_le c.dmaEdge.prevD
      simp only [ResetSync.released, Bool.toNat_false]
      omega

/-- Only the state of the transfer asks for it. -/
theorem nextDmaEnableW_eq_false (hst : c.orch.dmaStateR ≠ .runAxi) :
    c.orch.nextDmaEnableW = false := by
  unfold PdhCore.Orchestrator.nextDmaEnableW
  split <;> simp_all

/-- Only the transfer raises the enable level. -/
theorem dmaEnableR_step (hst : c.orch.dmaStateR ≠ .runAxi) (hlow : c.orch.dmaEnableR = false)
    (e : Tick) : (c.step e).orch.dmaEnableR = false := by
  have hden := nextDmaEnableW_eq_false hst
  cases e <;> cases hsync : c.coreRst.rstSyncR <;>
    simp [Control.step, Control.pdhEdge, Control.fclkEdge, PdhCore.Orchestrator.step,
      PdhCore.Orchestrator.reset, hsync, hden, hlow]

/-- A level that is low everywhere does not rise. -/
theorem EnableLow.falls (h : EnableLow c) : EnableFalls c := by
  obtain ⟨hlow, hlag⟩ := h
  simp only [lag, Nat.add_eq_zero_iff, Bool.toNat_eq_zero] at hlag
  obtain ⟨⟨⟨⟨⟨-, -⟩, h1⟩, h2⟩, h3⟩, h4⟩ := hlag
  simp [EnableFalls, hlow, h1, h2, h3]

/-- A low level that has arrived stays there. -/
theorem lag_step_of_eq_zero (hc : Sound c) (h : EnableLow c) (e : Tick) : (c.step e).lag = 0 := by
  have hedge := lag_fclkEdge hc h.falls h.1
  cases e with
  | word w => exact h.2
  | pdh last =>
      rw [Control.step, lag_pdhEdge, h.2]
  | fclk done =>
      rw [Control.step, hedge, h.2]
  | both last done =>
      have hboth : (c.step (.both last done)).lag = (c.fclkEdge done).lag := rfl
      rw [hboth, hedge, h.2]

/-- A level that is low everywhere stays low until the transfer is asked for. -/
theorem EnableLow.step (hc : Sound c) (h : EnableLow c) (hst : c.orch.dmaStateR ≠ .runAxi)
    (e : Tick) : EnableLow (c.step e) :=
  ⟨dmaEnableR_step hst h.1 e, lag_step_of_eq_zero hc h e⟩

/-- While no transfer runs, the level that asks for it comes nearer. -/
theorem enable_step_waiting (hc : Sound c) (hst : c.orch.dmaStateR = .runAxi)
    (h : EnableLow c ∨ EnableClimbs c) (hidle : c.transferring = false) (e : Tick)
    (hidle' : (c.step e).transferring = false) :
    EnableLow (c.step e) ∨ EnableClimbs (c.step e) := by
  have hsync := coreRst_runAxi hc hst
  have hden : c.orch.nextDmaEnableW = true := by
    rw [PdhCore.Orchestrator.nextDmaEnableW, hst]
  rcases h with hlow | ⟨hhigh, hrst, hprev, h32, h21⟩
  · have hlag := lag_step_of_eq_zero hc hlow e
    cases henable : (c.step e).orch.dmaEnableR with
    | false => exact .inl ⟨henable, hlag⟩
    | true =>
        right
        simp only [lag, Nat.add_eq_zero_iff, Bool.toNat_eq_zero] at hlag
        obtain ⟨⟨⟨⟨⟨hpipe, hsync'⟩, h1⟩, h2⟩, h3⟩, h4⟩ := hlag
        have hrst : (c.step e).dmaRst = .released := dmaRst_eq (hc.step e) hsync'
        exact ⟨henable, hrst, h4, by simp [h3], by simp [h2]⟩
  · right
    have hsync' : c.dmaRst.rstSyncR = false := by
      rw [hrst]
      rfl
    -- a high level at the last register starts the transfer
    have hstart : ∀ done, (c.fclkEdge done).transferring = false → c.enable3ff = false := by
      intro done hrest
      simpa [Control.fclkEdge, nextTransferring, hsync', hidle, dmaStart, PosedgeDetector.q,
        hprev] using hrest
    have hrst' : c.dmaRst.clock false = .released := by
      rw [hrst]
      rfl
    cases e with
    | word w => exact ⟨hhigh, hrst, hprev, h32, h21⟩
    | pdh last =>
        refine ⟨?_, hrst, hprev, h32, h21⟩
        simp [Control.step, Control.pdhEdge, PdhCore.Orchestrator.step, hsync, hden]
    | fclk done =>
        refine ⟨hhigh, hrst', hstart done hidle', ?_, ?_⟩
        · simpa [Control.step, Control.fclkEdge, hsync'] using h21
        · simp [Control.step, Control.fclkEdge, hsync', hhigh]
    | both last done =>
        refine ⟨?_, hrst', hstart done hidle', ?_, ?_⟩
        · simp [Control.step, Control.pdhEdge, PdhCore.Orchestrator.step, hsync, hden]
        · simpa [Control.step, Control.fclkEdge, hsync'] using h21
        · simp [Control.step, Control.fclkEdge, hsync', hhigh]

/-- The end of the capture is not missed. -/
theorem EdgePending.step (hst : c.orch.dmaStateR = .runBram) (hc : Sound c)
    (hidle : c.capturing = false) (h : EdgePending c) (e : Tick) : EdgePending (c.step e) := by
  have hsync := hc.coreRst_of_ne_armed (by simp [hst])
  have hpdh : ∀ last, EdgePending (c.pdhEdge last) := by
    intro last
    simp only [EdgePending, Control.pdhEdge, PdhCore.Orchestrator.step, hsync, Bool.false_eq_true,
      if_false, PdhCore.Orchestrator.nextBramEdgeAcquiredW, hst,
      PdhCore.Orchestrator.bramReadyEdgeW, PosedgeDetector.q, hidle, PosedgeDetector.clock_prevD]
    rcases h with hacquired | hready | hprev
    · simp [hacquired]
    · simp [hready]
    · by_cases hready : c.orch.bramReadyR = true <;> simp [hready, hprev]
  cases e with
  | word w => exact h
  | fclk done => exact h
  | pdh last => exact hpdh last
  | both last done => exact hpdh last

/-- The edge of the capture comes one step nearer at every edge of the core clock. -/
theorem acquireLeft_pdhEdge (hsync : c.coreRst.rstSyncR = false)
    (hst : c.orch.dmaStateR = .runBram) (hidle : c.capturing = false) (h : EdgePending c)
    (last : Bool) : (c.pdhEdge last).orch.acquireLeft = c.orch.acquireLeft - 1 := by
  simp only [PdhCore.Orchestrator.acquireLeft, Control.pdhEdge, PdhCore.Orchestrator.step, hsync,
    Bool.false_eq_true, if_false, PdhCore.Orchestrator.nextBramEdgeAcquiredW, hst, hidle,
    PdhCore.Orchestrator.bramReadyEdgeW, PosedgeDetector.q]
  by_cases hacquired : c.orch.bramEdgeAcquiredR = true
  · simp [hacquired]
  · by_cases hready : c.orch.bramReadyR = true
    · have hprev : c.orch.uBramEdgeDetector.prevD = false := by
        simpa [EdgePending, hacquired, hready] using h
      simp [hacquired, hready, hprev]
    · simp [hacquired, hready]

/-- So does the ready level. -/
theorem readyLeft_pdhEdge (hsync : c.coreRst.rstSyncR = false) (hidle : c.transferring = false)
    (last : Bool) : (c.pdhEdge last).orch.readyLeft = c.orch.readyLeft - 1 := by
  simp only [PdhCore.Orchestrator.readyLeft, Control.pdhEdge, PdhCore.Orchestrator.step, hsync,
    hidle, Bool.false_eq_true, if_false, Bool.not_false]
  split_ifs <;> simp_all

theorem enableLeft_le : c.enableLeft ≤ 3 := by
  unfold enableLeft
  split_ifs <;> omega

theorem enable3ff_of_enableLeft (h : c.enableLeft = 0) : c.enable3ff = true := by
  unfold enableLeft at h
  split_ifs at h with h1 h2 h3
  simpa using h3

/-- So does the enable level, at every edge of {lit}`fclk0`. -/
theorem enableLeft_fclkEdge (hrst : c.dmaRst = .released) (hhigh : c.orch.dmaEnableR = true)
    (done : Bool) : (c.fclkEdge done).enableLeft = c.enableLeft - 1 := by
  simp only [enableLeft, Control.fclkEdge, hrst, hhigh, ResetSync.released, Bool.not_false,
    Bool.true_and]
  split_ifs <;> simp_all

/-- A ready level that is not high everywhere raises an edge before it is. -/
theorem not_readyHigh_step (hsync : c.coreRst.rstSyncR = false)
    (hedge : c.orch.dmaReadyEdgeW = false) (h : ¬ReadyHigh c) (e : Tick) :
    ¬ReadyHigh (c.step e) := by
  have hpdh : ∀ last, ¬ReadyHigh (c.pdhEdge last) := by
    intro last hhigh
    simp only [ReadyHigh, Control.pdhEdge, PdhCore.Orchestrator.step, hsync, Bool.false_eq_true,
      if_false, PosedgeDetector.clock_prevD, Bool.not_false, Bool.true_and] at hhigh
    obtain ⟨-, h1, h2, h3⟩ := hhigh
    rw [PdhCore.Orchestrator.dmaReadyEdgeW, PosedgeDetector.q, h3, Bool.true_and,
      Bool.not_eq_false'] at hedge
    exact h ⟨h1, h2, h3, hedge⟩
  cases e with
  | word w => exact h
  | fclk done => exact h
  | pdh last => exact hpdh last
  | both last done => exact hpdh last

/-- A transfer under way keeps the ready level low. -/
theorem dmaReady1ff_step (hsync : c.coreRst.rstSyncR = false) (hbusy : c.transferring = true)
    (hlow : c.orch.dmaReady1ff = false) (e : Tick) : (c.step e).orch.dmaReady1ff = false := by
  cases e <;> simp [Control.step, Control.pdhEdge, Control.fclkEdge, PdhCore.Orchestrator.step,
    hsync, hbusy, hlow]

end Control

/-! ## The transfer of a design -/

/-- What the answer of the slave costs at an event. -/
def Event.heldUp {P : Params} (s : State P) : Event → ℕ
  | .fclk0 slave => DmaController.heldUp ((readOutInput slave s).toDma s.readOut.rdata) s.uDma
  | .bothClk _ slave => DmaController.heldUp ((readOutInput slave s).toDma s.readOut.rdata) s.uDma
  | _ => 0

section Transfer

variable {P : Params} {s : State P} {e : Event} (rom : Nco.Rom)

/-- The transfer moves on edges of {lit}`fclk0` only. -/
theorem uDma_step_of_not_fclkEdge (hno : e.NoReset) (he : e.isFclkEdge = false) :
    (step rom e s).uDma = s.uDma := by
  cases e with
  | gpioWrite w =>
      simp only [step, gpioWrite]
      rw [if_neg (ne_true_of_eq_false hno)]
  | pdhClk adc => rfl
  | fclk0 slave => cases he
  | bothClk adc slave => cases he

theorem heldUp_of_not_fclkEdge (he : e.isFclkEdge = false) : e.heldUp s = 0 := by
  cases e with
  | gpioWrite w => rfl
  | pdhClk adc => rfl
  | fclk0 slave => cases he
  | bothClk adc slave => cases he

/-- An edge of {lit}`fclk0` is a clock period of the DMA controller. -/
theorem uDma_step_of_fclkEdge (he : e.isFclkEdge = true) :
    ∃ i : DmaController.Input, i.rstI = PdhCore.rstBit s.axiFromPs ∧
      (step rom e s).uDma = DmaController.step P.dma i s.uDma ∧
      e.heldUp s = DmaController.heldUp i s.uDma := by
  cases e with
  | gpioWrite w => cases he
  | pdhClk adc => cases he
  | fclk0 slave => exact ⟨_, rfl, rfl, rfl⟩
  | bothClk adc slave => exact ⟨_, rfl, rfl, rfl⟩

/-- Nothing is held up while nothing is transferred. -/
theorem heldUp_of_idle (hidle : (control s).transferring = false) : e.heldUp s = 0 := by
  have hst : s.uDma.stateR = .idle := by
    simpa [control] using hidle
  cases e <;> simp [Event.heldUp, DmaController.heldUp, hst]

variable (hrst : PdhCore.rstBit s.axiFromPs = false) (hdma : (control s).dmaRst = .released)

include hrst hdma

/-- One event of a transfer that goes on. -/
theorem edgesLeft_step (hP : P.dma.finalWriteAddr.toNat + 128 < 2 ^ 32) (he : e.isFclkEdge = true)
    (hbusy : (control s).transferring = true)
    (hbusy' : (control (step rom e s)).transferring = true) :
    DmaController.edgesLeft P.dma (step rom e s).uDma + 1 =
      DmaController.edgesLeft P.dma s.uDma + e.heldUp s := by
  rcases uDma_step_of_fclkEdge rom he with ⟨i, hi, hstep, hheld⟩
  have hstate := DmaController.step_stateR (P := P.dma) hdma (hi.trans hrst)
  simp only [control, bne_iff_ne, hstep, hstate] at hbusy hbusy'
  rw [hstep, hheld]
  exact DmaController.edgesLeft_step hP hdma (hi.trans hrst) hbusy hbusy'

/-- The last event of a transfer. -/
theorem edgesLeft_of_last (he : e.isFclkEdge = true) (hbusy : (control s).transferring = true)
    (hidle' : (control (step rom e s)).transferring = false) :
    DmaController.edgesLeft P.dma s.uDma = 1 := by
  rcases uDma_step_of_fclkEdge rom he with ⟨i, hi, hstep, -⟩
  have hstate := DmaController.step_stateR (P := P.dma) hdma (hi.trans hrst)
  simp only [control, bne_iff_ne, bne_eq_false_iff_eq, hstep, hstate] at hbusy hidle'
  exact DmaController.edgesLeft_of_last hbusy hidle'

/-- The event that starts a transfer. -/
theorem edgesLeft_start (hidle : (control s).transferring = false)
    (hno : e.NoReset) (hbusy' : (control (step rom e s)).transferring = true) :
    e.isFclkEdge = true ∧
      DmaController.edgesLeft P.dma (step rom e s).uDma = DmaController.transferEdges P.dma := by
  cases he : e.isFclkEdge with
  | false =>
      have hsame := uDma_step_of_not_fclkEdge (s := s) rom hno he
      simp only [control, hsame] at hidle hbusy'
      rw [hidle] at hbusy'
      cases hbusy'
  | true =>
      refine ⟨rfl, ?_⟩
      rcases uDma_step_of_fclkEdge rom he with ⟨i, hi, hstep, -⟩
      have hstate := DmaController.step_stateR (P := P.dma) hdma (hi.trans hrst)
      simp only [control, bne_iff_ne, bne_eq_false_iff_eq, hstep, hstate] at hidle hbusy'
      rw [hstep]
      exact DmaController.edgesLeft_start hdma (hi.trans hrst) hidle hbusy'

end Transfer

end PdhTop
end PoundDreverHall
