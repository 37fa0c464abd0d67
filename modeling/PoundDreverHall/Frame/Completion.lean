import Mathlib.Algebra.BigOperators.Intervals
import PoundDreverHall.Clocked.Crossing
import PoundDreverHall.Clocked.Rounds
import PoundDreverHall.Frame.Freshness
import PoundDreverHall.Frame.Pace

/-!
# Frames - a frame that is captured is completed

In every phase of a frame the design waits for an edge of one of its clocks, and each such edge
leaves it with less to do.  A frame takes as many rounds as its decimation, its bursts and the
answers of the slave say, whatever is written to the bus meanwhile.

Main results:

- Theorem {lit}`exists_completes`: the frame under way is completed.
- Theorem {lit}`frame_completed`: after a reset no order gets stuck.
- Theorem {lit}`frameRounds_le_timeout`: the rounds of a frame and the time that `cmd_get_frame`
  waits.
-/

namespace PoundDreverHall
namespace PdhTop

open Clocked

/-! ## What is left to do -/

/-- The clocks of the design. -/
inductive Clock where
  | pdhClk
  | fclk0
deriving DecidableEq, Repr

/-- The event is an edge of a clock. -/
def Event.ticks (e : Event) : Clock → Bool
  | .pdhClk => e.isPdhEdge
  | .fclk0 => e.isFclkEdge

/-- The clock that a phase waits for. -/
def awaited (c : Control) : Phase → Clock
  | .waiting => if c.orch.dmaEnableR = true then .fclk0 else .pdhClk
  | .transferring => .fclk0
  | _ => .pdhClk

/-- The edges until the ready level rises, each of the clock that is waited for.  The decimation is
at most {lit}`d`, and the slave holds up the transfer for at most {lit}`slack` edges. -/
def left {P : Params} (d slack : ℕ) (s : State P) : Phase → ℕ
  | .ordered => (2 ^ P.bram.aw - 1) * d + DmaController.transferEdges P.dma + slack + 17
  | .enabling => (2 ^ P.bram.aw - 1) * d + DmaController.transferEdges P.dma + slack + 16
  | .capturing =>
      BramController.cyclesLeft s.uBram + DmaController.transferEdges P.dma + slack + 15
  | .captured =>
      (control s).orch.acquireLeft + (control s).orch.readyLeft +
        DmaController.transferEdges P.dma + slack + 9
  | .waiting =>
      if (control s).orch.dmaEnableR = true then
        (control s).enableLeft + DmaController.transferEdges P.dma + slack + 4
      else DmaController.transferEdges P.dma + slack + 8
  | .transferring => DmaController.edgesLeft P.dma s.uDma + slack + 3
  | .finished => (control s).orch.readyLeft
  | .armed | .stale => 0

/-- A frame has been ordered and is not complete. -/
def Phase.UnderWay (q : Phase) : Prop :=
  q ≠ .armed ∧ q ≠ .stale

theorem Phase.UnderWay.next {q : Phase} (h : q.UnderWay) (hq : q ≠ .finished) :
    q.next.UnderWay := by
  cases q <;> simp_all [Phase.UnderWay, Phase.next]

section Left

variable {P : Params} {s : State P} {e : Event} (rom : Nco.Rom)
  (hrst : PdhCore.rstBit s.axiFromPs = false) (hno : e.NoReset)
  {N p f d slack slack' : ℕ} (hslack : slack' + e.heldUp s = slack)

include hrst hno

theorem completes_of_move (hat : (control s).At .finished)
    (hat' : (control (step rom e s)).At .stale) :
    e.isPdhEdge = true ∧ s.uPdhCore.orch.dmaReadyEdgeW = true ∧
      s.uPdhCore.orch.dmaStateR = .runAxi := by
  have hst : (control s).orch.dmaStateR = .runAxi := hat.capture.1
  have hst' : (control (step rom e s)).orch.dmaStateR = .stale := hat'.capture.1
  have hsync := Control.coreRst_runAxi hat.sound hst
  cases he : e.isPdhEdge with
  | false =>
      have hcore := uPdhCore_step_of_not_pdhEdge (s := s) rom hno he
      simp only [control, hcore] at hst hst'
      rw [hst] at hst'
      cases hst'
  | true =>
      refine ⟨rfl, ?_, hst⟩
      rcases control_step_of_pdhEdge (s := s) rom hrst he with ⟨last, horch, -⟩
      rw [horch] at hst'
      by_contra hnone
      have hedge : (control s).orch.dmaReadyEdgeW = false := eq_false_of_ne_true hnone
      simp [Control.pdhEdge, PdhCore.Orchestrator.step, hsync,
        PdhCore.Orchestrator.nextDmaStateW, hst, hedge] at hst'

/-- What an edge of {lit}`pdh_clk` does to the capture side. -/
theorem captureAt_of_pdhEdge (he : e.isPdhEdge = true) {q : Phase}
    (h : ∀ last, Control.CaptureAt ((control s).pdhEdge last) q) :
    Control.CaptureAt (control (step rom e s)) q := by
  rw [control_step hrst rom hno]
  cases e with
  | gpioWrite w => cases he
  | fclk0 slave => cases he
  | pdhClk adc => exact h _
  | bothClk adc slave =>
      have hnext := h (BramController.lastAddr s.uBram)
      cases q <;> exact hnext

/-- An edge of {lit}`pdh_clk` ends the two phases before a capture. -/
theorem isPdhEdge_eq_false {q : Phase} (hq : q = .ordered ∨ q = .enabling)
    (hat : (control s).At q) (hat' : (control (step rom e s)).At q) : e.isPdhEdge = false := by
  by_contra he
  simp only [Bool.not_eq_false] at he
  rcases hq with rfl | rfl
  · have hnext := captureAt_of_pdhEdge rom hrst hno he
      (Control.captureAt_ordered hat.sound hat.capture)
    have hlow := hat'.capture.2.1
    rw [hnext.2.1] at hlow
    cases hlow
  · have hnext := captureAt_of_pdhEdge rom hrst hno he
      (Control.captureAt_enabling hat.sound hat.capture)
    have hlow := hat'.capture.2.2.1
    rw [hnext.2.2.1] at hlow
    cases hlow

include hslack

/-- A move leaves less to do. -/
theorem left_move (hd : (control s).orch.dmaStateR = .runBram →
      BramController.period (bramInput s).decimationCodeI ≤ d) {q : Phase}
    (hq : q.UnderWay) (hfinished : q ≠ .finished) (h : Primed N d p f s q) (hat : (control s).At q)
    (hat' : (control (step rom e s)).At q.next) :
    left d slack' (step rom e s) q.next < left d slack s q := by
  cases q with
  | armed => exact absurd rfl hq.1
  | ordered =>
      simp only [left, Phase.next]
      omega
  | enabling =>
      obtain ⟨he, hidle, hstart⟩ := capturing_start rom hno hat hat'
      have hst : (control s).orch.dmaStateR = .runBram := hat.capture.1
      have hreleased := bramRst_released hat.sound (by simp [hst])
      have hcycles := BramController.cyclesLeft_start (congrArg ResetSync.rstSyncR hreleased) hrst
        hidle hstart
      have hmul := Nat.mul_le_mul_left (2 ^ P.bram.aw - 1) (hd hst)
      simp only [left, Phase.next, uBram_step_of_pdhEdge rom he, hcycles]
      omega
  | capturing =>
      have hacquire := (control (step rom e s)).orch.acquireLeft_le
      have hready := (control (step rom e s)).orch.readyLeft_le
      simp only [left, Phase.next]
      omega
  | captured =>
      have henable := (control (step rom e s)).enableLeft_le
      simp only [left, Phase.next]
      split_ifs <;> omega
  | waiting =>
      obtain ⟨-, hedges⟩ := edgesLeft_start rom hrst (dmaRst_of_waiting hat h) hat.readOut.1 hno
        hat'.readOut.1
      simp only [left, Phase.next, hedges]
      split_ifs <;> omega
  | transferring =>
      have hready := (control (step rom e s)).orch.readyLeft_le
      have hbusy : s.uDma.stateR ≠ .idle := by
        simpa [control] using hat.readOut.1
      have hedges := DmaController.edgesLeft_pos (P := P.dma) hbusy
      simp only [left, Phase.next]
      omega
  | finished => exact absurd rfl hfinished
  | stale => exact absurd rfl hq.2

omit hrst hno in
/-- Outside a transfer the slave costs nothing. -/
theorem slack_eq (hidle : (control s).transferring = false) : slack' = slack := by
  have hheld := heldUp_of_idle (e := e) hidle
  omega

theorem left_stay (hdepth : P.bram.depth = 2 ^ P.bram.aw)
    (hP : P.dma.finalWriteAddr.toNat + 128 < 2 ^ 32) {q : Phase} (hq : q.UnderWay)
    (h : Primed N d p f s q) (hat : (control s).At q) (hat' : (control (step rom e s)).At q)
    (hnot : ¬(e.isPdhEdge = true ∧ s.uPdhCore.orch.dmaReadyEdgeW = true ∧
      s.uPdhCore.orch.dmaStateR = .runAxi)) :
    left d slack' (step rom e s) q < left d slack s q ∨
      e.ticks (awaited (control s) q) = false ∧
        left d slack' (step rom e s) q = left d slack s q ∧
        awaited (control (step rom e s)) q = awaited (control s) q := by
  cases q with
  | armed => exact absurd rfl hq.1
  | ordered =>
      have he := isPdhEdge_eq_false rom hrst hno (.inl rfl) hat hat'
      have heq := slack_eq hslack hat.readOut.1
      exact .inr ⟨he, by simp only [left, heq], rfl⟩
  | enabling =>
      have he := isPdhEdge_eq_false rom hrst hno (.inr rfl) hat hat'
      have heq := slack_eq hslack hat.readOut.1
      exact .inr ⟨he, by simp only [left, heq], rfl⟩
  | capturing =>
      have heq := slack_eq hslack hat.readOut.1
      obtain ⟨-, -, -, hcycles⟩ := uBram_step_capturing rom hrst hno hdepth hat hat' h.2.2.1
      cases he : e.isPdhEdge with
      | true =>
          left
          simp only [left, ← hcycles, he, heq, Bool.toNat_true]
          omega
      | false =>
          right
          refine ⟨he, ?_, rfl⟩
          simp only [left, ← hcycles, he, heq, Bool.toNat_false, Nat.add_zero]
  | captured =>
      have heq := slack_eq hslack hat.readOut.1
      have hst : (control s).orch.dmaStateR = .runBram := hat.capture.1
      have hsync := hat.sound.coreRst_of_ne_armed (by simp [hst])
      cases he : e.isPdhEdge with
      | true =>
          left
          rcases control_step_of_pdhEdge (s := s) rom hrst he with ⟨last, horch, -⟩
          have hacquire := Control.acquireLeft_pdhEdge hsync hst hat.capture.2.2.2 h.2 last
          have hready := Control.readyLeft_pdhEdge hsync hat.readOut.1 last
          rw [← horch] at hacquire hready
          have hpos : 0 < (control s).orch.acquireLeft + (control s).orch.readyLeft := by
            by_contra hzero
            -- with nothing left the orchestrator leaves for the transfer
            have hacquired := PdhCore.Orchestrator.acquireLeft_eq_zero (o := (control s).orch)
              (by omega)
            have hhigh := PdhCore.Orchestrator.readyLeft_eq_zero (o := (control s).orch) (by omega)
            have hst' : (control (step rom e s)).orch.dmaStateR = .runBram := hat'.capture.1
            rw [horch] at hst'
            simp [Control.pdhEdge, PdhCore.Orchestrator.step, hsync,
              PdhCore.Orchestrator.nextDmaStateW, hst, hacquired, hhigh.2.2] at hst'
          simp only [left, hacquire, hready, heq]
          omega
      | false =>
          right
          have hcore := uPdhCore_step_of_not_pdhEdge (s := s) rom hno he
          refine ⟨he, ?_, rfl⟩
          simp only [left, control, hcore, heq]
  | waiting =>
      have heq := slack_eq hslack hat.readOut.1
      have hst : (control s).orch.dmaStateR = .runAxi := hat.capture.1
      have hsync := Control.coreRst_runAxi hat.sound hst
      cases henable : (control s).orch.dmaEnableR with
      | false =>
          cases he : e.isPdhEdge with
          | true =>
              left
              rcases control_step_of_pdhEdge (s := s) rom hrst he with ⟨last, horch, -⟩
              have hhigh : (control (step rom e s)).orch.dmaEnableR = true := by
                rw [horch]
                simp [Control.pdhEdge, PdhCore.Orchestrator.step, hsync,
                  PdhCore.Orchestrator.nextDmaEnableW, hst]
              have hle := (control (step rom e s)).enableLeft_le
              simp only [left, hhigh, henable, if_true, Bool.false_eq_true, if_false]
              omega
          | false =>
              right
              have hcore := uPdhCore_step_of_not_pdhEdge (s := s) rom hno he
              have hlow : (control (step rom e s)).orch.dmaEnableR = false := by
                simpa only [control, hcore] using henable
              refine ⟨?_, ?_, ?_⟩
              · rw [awaited, if_neg (by simp [henable])]
                exact he
              · simp [left, henable, hlow, heq]
              · simp [awaited, henable, hlow]
      | true =>
          have hclimbs : (control s).EnableClimbs := by
            rcases h with hlow | hclimbs
            · rw [hlow.1] at henable
              cases henable
            · exact hclimbs
          have hhigh : (control (step rom e s)).orch.dmaEnableR = true := by
            cases hpdh : e.isPdhEdge with
            | true =>
                rcases control_step_of_pdhEdge (s := s) rom hrst hpdh with ⟨last, horch, -⟩
                rw [horch]
                simp [Control.pdhEdge, PdhCore.Orchestrator.step, hsync,
                  PdhCore.Orchestrator.nextDmaEnableW, hst]
            | false =>
                simpa only [control, uPdhCore_step_of_not_pdhEdge rom hno hpdh] using henable
          cases he : e.isFclkEdge with
          | true =>
              left
              obtain ⟨done, hedge⟩ := readOut_of_fclkEdge (s := s) rom hrst hno he
              have hless := Control.enableLeft_fclkEdge hclimbs.2.1 henable done
              have hpos : 0 < (control s).enableLeft := by
                by_contra hzero
                have hidle' : ((control s).fclkEdge done).transferring = false :=
                  hedge.2.1.symm.trans hat'.readOut.1
                simp [Control.fclkEdge, Control.nextTransferring, hclimbs.2.1, ResetSync.released,
                  hat.readOut.1, Control.dmaStart, PosedgeDetector.q, hclimbs.2.2.1,
                  Control.enable3ff_of_enableLeft (Nat.eq_zero_of_not_pos hzero)] at hidle'
              simp only [left, hhigh, henable, if_true, hedge.2.2, hless, heq]
              omega
          | false =>
              right
              refine ⟨?_, ?_, ?_⟩
              · rw [awaited, if_pos henable]
                exact he
              · simp [left, henable, hhigh, heq, (readOut_of_not_fclkEdge rom hrst hno he).2]
              · simp [awaited, henable, hhigh]
  | transferring =>
      cases he : e.isFclkEdge with
      | true =>
          left
          have hstep := edgesLeft_step rom hrst (dmaRst_of_transferring hat) hP he hat.readOut.1
            hat'.readOut.1
          simp only [left]
          omega
      | false =>
          right
          have hheld := heldUp_of_not_fclkEdge (s := s) he
          refine ⟨he, ?_, rfl⟩
          simp only [left, uDma_step_of_not_fclkEdge rom hno he]
          omega
  | finished =>
      have hst : (control s).orch.dmaStateR = .runAxi := hat.capture.1
      have hsync := Control.coreRst_runAxi hat.sound hst
      cases he : e.isPdhEdge with
      | true =>
          left
          rcases control_step_of_pdhEdge (s := s) rom hrst he with ⟨last, horch, -⟩
          have hready := Control.readyLeft_pdhEdge hsync hat.readOut.1 last
          rw [← horch] at hready
          have hpos : 0 < (control s).orch.readyLeft := by
            by_contra hzero
            have hhigh := PdhCore.Orchestrator.readyLeft_eq_zero (o := (control s).orch) (by omega)
            have hprev : (control s).orch.uDmaEdgeDetector.prevD = false := by
              by_contra hprev
              exact h ⟨hhigh.1, hhigh.2.1, hhigh.2.2, by simpa using hprev⟩
            have hedge : (control s).orch.dmaReadyEdgeW = true := by
              simp [PdhCore.Orchestrator.dmaReadyEdgeW, PosedgeDetector.q, hhigh.2.2, hprev]
            exact hnot ⟨he, hedge, hst⟩
          simp only [left, hready]
          omega
      | false =>
          right
          have hcore := uPdhCore_step_of_not_pdhEdge (s := s) rom hno he
          refine ⟨he, ?_, rfl⟩
          simp only [left, control, hcore]
  | stale => exact absurd rfl hq.2

end Left

/-- The edge of the ready level raises the interrupt. -/
theorem irqR_step {P : Params} {s : State P} (hrst : PdhCore.rstBit s.axiFromPs = false)
    (hsync : s.uPdhCore.rst.rstSyncR = false) (hedge : s.uPdhCore.orch.dmaReadyEdgeW = true)
    (rom : Nco.Rom) (adc : Adc) :
    PdhCore.irqO (PdhCore.step rom (coreInput adc s) s.uPdhCore) = true := by
  simp [PdhCore.irqO, PdhCore.step, PdhCore.posedge, PdhCore.negedge, PdhCore.Input.rstI,
    coreInput, hrst, PdhCore.nextIrqR, hsync, hedge]

/-! ## Runs -/

section Runs

variable {P : Params} (rom : Nco.Rom) (s₀ : State P) (ins : ℕ → Event)

/-- Until the horizon fewer than {lit}`N` edges of {lit}`pdh_clk` follow one another without one of
{lit}`fclk0`, and fewer than 17 the other way round. -/
structure Paced (N horizon : ℕ) : Prop where
  fclk : ∀ n < horizon, waited (fun k => (ins k).isPdhEdge) (fun k => (ins k).isFclkEdge) n < N
  pdh : ∀ n < horizon, waited (fun k => (ins k).isFclkEdge) (fun k => (ins k).isPdhEdge) n < 17

/-- No level that a later phase needs has been missed. -/
structure Started (N d : ℕ) : Prop where
  rstBit : PdhCore.rstBit s₀.axiFromPs = false
  primed : ∃ q, (control s₀).At q ∧ Primed N d 0 0 s₀ q

/-- Orders ask for a decimation of at most {lit}`d`. -/
def Decimates (d horizon : ℕ) : Prop :=
  ∀ n < horizon, (run (step rom) s₀ ins n).uPdhCore.orch.dmaStateR = .runBram →
    BramController.period (bramInput (run (step rom) s₀ ins n)).decimationCodeI ≤ d

/-- The edges for which the slave has held up the transfers in the first {lit}`n` events. -/
def heldUpTo (n : ℕ) : ℕ :=
  ∑ k ∈ Finset.range n, (ins k).heldUp (run (step rom) s₀ ins k)

/-- A frame is under way, and what is left to do of it. -/
def Due (N d total n : ℕ) (c : Clock) (k : ℕ) : Prop :=
  ∃ q : Phase, q.UnderWay ∧ (control (run (step rom) s₀ ins n)).At q ∧
    Primed N d (waited (fun k => (ins k).isPdhEdge) (fun k => (ins k).isFclkEdge) n)
      (waited (fun k => (ins k).isFclkEdge) (fun k => (ins k).isPdhEdge) n)
      (run (step rom) s₀ ins n) q ∧
    c = awaited (control (run (step rom) s₀ ins n)) q ∧
    k = left d (total - heldUpTo rom s₀ ins n) (run (step rom) s₀ ins n) q

/-- Rounds for a frame: the addresses at decimation {lit}`d`, the bursts, the edges for which the
slave holds them up, and the levels on their way. -/
def frameRounds (P : Params) (d slack : ℕ) : ℕ :=
  2 ^ P.bram.aw * d + DmaController.transferEdges P.dma + slack + 18

variable {rom s₀ ins}

theorem started_of_afterReset (hs : AfterReset rom s₀) (N d : ℕ) : Started s₀ N d := by
  obtain ⟨hrst, hcontrol⟩ := control_afterReset hs
  refine ⟨hrst, .armed, ?_, ?_⟩
  · rw [hcontrol]
    exact Control.at_released _
  · rw [Primed, hcontrol]
    rfl

/-- In the part of a frame that the core runs on the memory, there is less to do than in a
frame. -/
theorem left_lt_frameRounds {s : State P} {N d p f : ℕ} (slack : ℕ) {q : Phase}
    (hat : (control s).At q) (hprimed : Primed N d p f s q)
    (hst : s.uPdhCore.orch.dmaStateR = .runBram) :
    q.UnderWay ∧ left d slack s q < frameRounds P d slack := by
  have hphase : q.dmaSt = .runBram := hat.dmaStateR.symm.trans hst
  have hmul : (2 ^ P.bram.aw - 1) * d ≤ 2 ^ P.bram.aw * d := Nat.mul_le_mul_right d (Nat.sub_le _ _)
  cases q with
  | armed => cases hphase
  | ordered =>
      refine ⟨by simp [Phase.UnderWay], ?_⟩
      simp only [left, frameRounds]
      omega
  | enabling =>
      refine ⟨by simp [Phase.UnderWay], ?_⟩
      simp only [left, frameRounds]
      omega
  | capturing =>
      refine ⟨by simp [Phase.UnderWay], ?_⟩
      have hcycles := BramController.cyclesLeft_le s.uBram
      have hperiod := Nat.mul_le_mul_left (2 ^ P.bram.aw) hprimed.2.2.2
      simp only [left, frameRounds]
      omega
  | captured =>
      refine ⟨by simp [Phase.UnderWay], ?_⟩
      have hacquire := (control s).orch.acquireLeft_le
      have hready := (control s).orch.readyLeft_le
      simp only [left, frameRounds]
      omega
  | waiting => cases hphase
  | transferring => cases hphase
  | finished => cases hphase
  | stale => cases hphase

variable {N d horizon : ℕ} (hs : Started s₀ N d) (hins : ∀ n, (ins n).NoReset)
  (hdepth : P.bram.depth = 2 ^ P.bram.aw) (hP : P.dma.finalWriteAddr.toNat + 128 < 2 ^ 32)
  (hN : 4 * N < 2 ^ P.bram.aw) (hpaced : Paced ins N horizon)
  (hd : Decimates rom s₀ ins d horizon)

include hs hins hdepth hP hN hpaced hd

theorem exists_primed {n : ℕ} (hn : n ≤ horizon) :
    ∃ q, (control (run (step rom) s₀ ins n)).At q ∧
      Primed N d (waited (fun k => (ins k).isPdhEdge) (fun k => (ins k).isFclkEdge) n)
        (waited (fun k => (ins k).isFclkEdge) (fun k => (ins k).isPdhEdge) n)
        (run (step rom) s₀ ins n) q := by
  induction n with
  | zero => exact hs.primed
  | succ n ih =>
      rcases ih (Nat.le_of_succ_le hn) with ⟨q, hat, hprimed⟩
      have hbit := rstBit_run rom hs.rstBit hins n
      have hstep := Control.phase_step hat (tick (run (step rom) s₀ ins n) (ins n))
      rw [← control_step hbit rom (hins n)] at hstep
      rcases hstep with hstay | ⟨-, hmove⟩
      · exact ⟨q, hstay, hprimed.step rom hbit (hins n) hdepth hP hN (hpaced.fclk n hn)
          (hpaced.pdh n hn) (hd n hn) hat (.inl rfl) hstay⟩
      · exact ⟨q.next, hmove, hprimed.step rom hbit (hins n) hdepth hP hN (hpaced.fclk n hn)
          (hpaced.pdh n hn) (hd n hn) hat (.inr rfl) hmove⟩

/-- What is left to do gets less, whatever the slave answers. -/
theorem progress_due {total : ℕ} (htotal : ∀ n ≤ horizon, heldUpTo rom s₀ ins n ≤ total) :
    Progress (fun c n => (ins n).ticks c = true) (Due rom s₀ ins N d total)
      (fun n => Completes rom s₀ ins n ∧
        (run (step rom) s₀ ins n).uPdhCore.orch.dmaStateR = .runAxi) horizon := by
  rintro n hn c k ⟨q, hq, hat, hprimed, rfl, rfl⟩
  have hbit := rstBit_run rom hs.rstBit hins n
  by_cases hdone : Completes rom s₀ ins n ∧
      (run (step rom) s₀ ins n).uPdhCore.orch.dmaStateR = .runAxi
  · exact .inl hdone
  right
  have hslack : total - heldUpTo rom s₀ ins (n + 1) + (ins n).heldUp (run (step rom) s₀ ins n) =
      total - heldUpTo rom s₀ ins n := by
    have hsum : heldUpTo rom s₀ ins (n + 1) = heldUpTo rom s₀ ins n +
        (ins n).heldUp (run (step rom) s₀ ins n) := Finset.sum_range_succ _ n
    have hle := htotal (n + 1) hn
    omega
  have hstep := Control.phase_step hat (tick (run (step rom) s₀ ins n) (ins n))
  rw [← control_step hbit rom (hins n)] at hstep
  rcases hstep with hstay | ⟨-, hmove⟩
  · have hprimed' := hprimed.step rom hbit (hins n) hdepth hP hN (hpaced.fclk n hn)
      (hpaced.pdh n hn) (hd n hn) hat (.inl rfl) hstay
    rcases left_stay (d := d) rom hbit (hins n) hslack hdepth hP hq hprimed hat hstay
        fun h => hdone ⟨⟨h.1, h.2.1⟩, h.2.2⟩ with hless | ⟨hwaits, hsame, hclock⟩
    · exact .inl ⟨_, _, ⟨q, hq, hstay, hprimed', rfl, rfl⟩, hless⟩
    · exact .inr ⟨ne_true_of_eq_false hwaits, q, hq, hstay, hprimed', hclock.symm, hsame.symm⟩
  · have hfinished : q ≠ .finished := by
      rintro rfl
      obtain ⟨he, hedge, hst⟩ := completes_of_move rom hbit (hins n) hat hmove
      exact hdone ⟨⟨he, hedge⟩, hst⟩
    have hprimed' := hprimed.step rom hbit (hins n) hdepth hP hN (hpaced.fclk n hn)
      (hpaced.pdh n hn) (hd n hn) hat (.inr rfl) hmove
    have hless := left_move rom hbit (hins n) hslack (hd n hn) hq hfinished hprimed hat hmove
    exact .inl ⟨_, _, ⟨q.next, hq.next hfinished, hmove, hprimed', rfl, rfl⟩, hless⟩

/-- A frame that is captured is completed within its rounds, which may begin later. -/
theorem exists_completes {bound : ℕ → ℕ} {rounds i slack n : ℕ}
    (hrounds : Rounds (fun c n => (ins n).ticks c = true) bound rounds)
    (hhorizon : bound rounds ≤ horizon) (hi : i + frameRounds P d slack ≤ rounds)
    (hn : n ≤ bound i) (hst : (run (step rom) s₀ ins n).uPdhCore.orch.dmaStateR = .runBram)
    (hslack : ∀ k ≤ horizon, heldUpTo rom s₀ ins k ≤ heldUpTo rom s₀ ins n + slack) :
    ∃ k, n ≤ k ∧ k < bound (i + frameRounds P d slack) ∧ Completes rom s₀ ins k ∧
      (run (step rom) s₀ ins k).uPdhCore.orch.dmaStateR = .runAxi := by
  have hle : n ≤ horizon :=
    hn.trans ((hrounds.bound_le .pdhClk (by omega) le_rfl).trans hhorizon)
  rcases exists_primed hs hins hdepth hP hN hpaced hd hle with ⟨q, hat, hprimed⟩
  obtain ⟨hunder, hless⟩ := left_lt_frameRounds slack hat hprimed hst
  have hdue : Due rom s₀ ins N d (heldUpTo rom s₀ ins n + slack) n
      (awaited (control (run (step rom) s₀ ins n)) q) (left d slack (run (step rom) s₀ ins n) q) :=
    ⟨q, hunder, hat, hprimed, rfl, by rw [Nat.add_sub_cancel_left]⟩
  rcases (progress_due hs hins hdepth hP hN hpaced hd hslack).within hrounds hhorizon hdue hn
    (by omega) with ⟨k, hnk, hk, hdone⟩
  exact ⟨k, hnk, hk.trans_le (hrounds.bound_le .pdhClk (by omega) hi), hdone⟩

/-- The completion raises the interrupt and leaves the orchestrator stale. -/
theorem irqO_of_completes {k : ℕ} (hk : k ≤ horizon) (hcompletes : Completes rom s₀ ins k)
    (hst : (run (step rom) s₀ ins k).uPdhCore.orch.dmaStateR = .runAxi) :
    PdhCore.irqO (run (step rom) s₀ ins (k + 1)).uPdhCore = true ∧
      (run (step rom) s₀ ins (k + 1)).uPdhCore.orch.dmaStateR = .stale := by
  obtain ⟨he, hedge⟩ := hcompletes
  rcases exists_primed hs hins hdepth hP hN hpaced hd hk with ⟨q, hat, -⟩
  have hbit := rstBit_run rom hs.rstBit hins k
  have hsync := Control.coreRst_runAxi hat.sound hst
  constructor
  · rcases uPdhCore_step_of_pdhEdge (s := run (step rom) s₀ ins k) rom he with ⟨adc, hcore⟩
    rw [run_succ, hcore]
    exact irqR_step hbit hsync hedge rom adc
  · rcases control_step_of_pdhEdge (s := run (step rom) s₀ ins k) rom hbit he with ⟨last, horch, -⟩
    have hstale : ((control (run (step rom) s₀ ins k)).pdhEdge last).orch.dmaStateR = .stale := by
      have hst' : (control (run (step rom) s₀ ins k)).orch.dmaStateR = .runAxi := hst
      have hedge' : (control (run (step rom) s₀ ins k)).orch.dmaReadyEdgeW = true := hedge
      simp [Control.pdhEdge, PdhCore.Orchestrator.step, hsync,
        PdhCore.Orchestrator.nextDmaStateW, hst', hedge']
    rw [← horch] at hstale
    exact hstale

end Runs

/-- With edges of both clocks every eight nanoseconds, the rounds of a frame take less than the
microseconds that `cmd_get_frame` waits. -/
theorem frameRounds_le_timeout (d : ℕ) {slack : ℕ} (hslack : slack ≤ 22800) :
    frameRounds {} d slack ≤ 125 * (330 + 140 * d) := by
  have hedges : DmaController.transferEdges ({} : Params).dma = 18432 := by decide
  have hdepth : 2 ^ ({} : Params).bram.aw = 16384 := rfl
  simp only [frameRounds, hedges, hdepth]
  omega

/-- After a reset no order gets stuck, whatever is written to the bus: if the orchestrator captures
a frame at the start of a round, the transfer of that frame ends, the interrupt is raised and the
orchestrator is free within the rounds of a frame.  With the parameters of the top level these are
fewer than the rounds of eight nanoseconds in the time that `cmd_get_frame` waits, if the slave does
not cost more than 22800 edges. -/
theorem frame_completed {P : Params} {rom : Nco.Rom} {s₀ : State P} {ins : ℕ → Event}
    (hs : AfterReset rom s₀) (hins : ∀ n, (ins n).NoReset)
    (hdepth : P.bram.depth = 2 ^ P.bram.aw) (hP : P.dma.finalWriteAddr.toNat + 128 < 2 ^ 32)
    {N d i slack : ℕ} (hN : 4 * N < 2 ^ P.bram.aw) {bound : ℕ → ℕ}
    (hrounds : Rounds (fun c n => (ins n).ticks c = true) bound (i + frameRounds P d slack))
    (hpaced : Paced ins N (bound (i + frameRounds P d slack)))
    (hd : Decimates rom s₀ ins d (bound (i + frameRounds P d slack)))
    (hslack : ∀ n ≤ bound (i + frameRounds P d slack),
      heldUpTo rom s₀ ins n ≤ heldUpTo rom s₀ ins (bound i) + slack)
    (hst : (run (step rom) s₀ ins (bound i)).uPdhCore.orch.dmaStateR = .runBram) :
    (∃ n, bound i ≤ n ∧ n < bound (i + frameRounds P d slack) ∧ Completes rom s₀ ins n ∧
      PdhCore.irqO (run (step rom) s₀ ins (n + 1)).uPdhCore = true ∧
      (run (step rom) s₀ ins (n + 1)).uPdhCore.orch.dmaStateR = .stale) ∧
    (P = {} → slack ≤ 22800 → frameRounds P d slack ≤ 125 * (330 + 140 * d)) := by
  have hstarted := started_of_afterReset hs N d
  rcases exists_completes hstarted hins hdepth hP hN hpaced hd hrounds le_rfl le_rfl le_rfl hst
    hslack with ⟨n, hle, hlt, hcompletes, hrunAxi⟩
  obtain ⟨hirq, hstale⟩ :=
    irqO_of_completes hstarted hins hdepth hP hN hpaced hd hlt.le hcompletes hrunAxi
  refine ⟨⟨n, hle, hlt, hcompletes, hirq, hstale⟩, ?_⟩
  rintro rfl hfew
  exact frameRounds_le_timeout d hfew

/-! ## A frame that is ordered after a reset -/

/-- An order with decimation 1, while both clocks tick. -/
def orderEvents (n : ℕ) : Event :=
  if n = 0 then .gpioWrite 0x1c000001#32
  else if n = 6 then .gpioWrite 0x5c000001#32
  else .bothClk quietAdc readySlave

/-- A slave that is always ready costs nothing. -/
theorem heldUp_readySlave {P : Params} (s : State P) (adc : Adc) :
    (Event.bothClk adc readySlave).heldUp s = 0 := by
  change DmaController.heldUp _ s.uDma = 0
  cases hst : s.uDma.stateR <;>
    simp [DmaController.heldUp, hst, ReadOut.Input.toDma, readOutInput, readySlave]

theorem heldUp_orderEvents (s : State {}) (n : ℕ) : (orderEvents n).heldUp s = 0 := by
  unfold orderEvents
  split_ifs
  · rfl
  · rfl
  · exact heldUp_readySlave s _

theorem isBothEdges_orderEvents {n : ℕ} (h0 : n ≠ 0) (h6 : n ≠ 6) :
    (orderEvents n).isPdhEdge = true ∧ (orderEvents n).isFclkEdge = true := by
  unfold orderEvents
  rw [if_neg h0, if_neg h6]
  exact ⟨rfl, rfl⟩

/-- The two clocks tick together. -/
theorem ticks_orderEvents :
    (fun n => (orderEvents n).isPdhEdge) = fun n => (orderEvents n).isFclkEdge := by
  funext n
  unfold orderEvents
  split_ifs
  · rfl
  · rfl
  · rfl

/-- The interrupt of the first frame. -/
theorem frame_completed_orderEvents :
    ∃ n, PdhCore.irqO (run (step fun _ => 0#16) (releasedState {} fun _ => 0#16) orderEvents
      (n + 1)).uPdhCore = true := by
  have hpaced : ∀ horizon, Paced orderEvents 2 horizon := by
    intro horizon
    constructor
    · intro n _
      rw [ticks_orderEvents, waited_self]
      omega
    · intro n _
      rw [ticks_orderEvents, waited_self]
      omega
  have hins : ∀ n, (orderEvents n).NoReset := by
    intro n
    unfold orderEvents
    split_ifs
    · rfl
    · rfl
    · trivial
  have hrounds : ∀ rounds, Rounds (fun c n => (orderEvents n).ticks c = true) (fun i => 14 + i)
      rounds := by
    intro rounds i _ c
    obtain ⟨hpdh, hfclk⟩ := isBothEdges_orderEvents (n := 14 + i) (by omega) (by omega)
    refine ⟨14 + i, le_rfl, Nat.lt_succ_self _, ?_⟩
    cases c
    · exact hpdh
    · exact hfclk
  have hzero : ∀ n, heldUpTo (fun _ => 0#16) (releasedState {} fun _ => 0#16) orderEvents n = 0 :=
    fun n => Finset.sum_eq_zero fun k _ => heldUp_orderEvents _ k
  have hslack : ∀ n ≤ 14 + (0 + frameRounds {} (2 ^ 22) 0),
      heldUpTo (fun _ => 0#16) (releasedState {} fun _ => 0#16) orderEvents n ≤
        heldUpTo (fun _ => 0#16) (releasedState {} fun _ => 0#16) orderEvents (14 + 0) + 0 := by
    intro n _
    rw [hzero, hzero]
  rcases frame_completed (afterReset_releasedState {} fun _ => 0#16) hins rfl (by decide)
    (by decide) (hrounds _) (hpaced _) (fun n _ _ => BramController.period_le _) (i := 0) hslack
    (by decide +kernel) with ⟨⟨n, -, -, -, hirq, -⟩, -⟩
  exact ⟨n, hirq⟩

end PdhTop
end PoundDreverHall
