import PoundDreverHall.Clocked.Cycle
import PoundDreverHall.Frame.Control

/-!
# Frames - the cycle of a frame

The control registers go through nine phases in a fixed order: the orchestrator
is armed, takes an order, raises the capture enable, the capture runs and ends,
the transfer is requested, runs and ends, and the orchestrator waits for another
command.  In each phase the levels in flight between the two clocks have a known
shape, which is what keeps an old level from starting something new.

Main results:

- Theorem {lit}`phase_step`: one event stays in the phase or makes the next move.
- Theorem {lit}`exists_moves`: along a run the moves are counted by a held counter.
-/

namespace PoundDreverHall
namespace PdhTop

open Clocked

/-! ## Phases -/

/-- Where the making of a frame stands. -/
inductive Phase where
  | armed
  | ordered
  | enabling
  | capturing
  | captured
  | waiting
  | transferring
  | finished
  | stale
deriving DecidableEq, Repr

/-- The phase after a move. -/
def Phase.next : Phase → Phase
  | .armed => .ordered
  | .ordered => .enabling
  | .enabling => .capturing
  | .capturing => .captured
  | .captured => .waiting
  | .waiting => .transferring
  | .transferring => .finished
  | .finished => .stale
  | .stale => .armed

namespace Control

/-- The reset pipelines drain together with what they reset. -/
structure Sound (c : Control) : Prop where
  bramRst : c.bramRst = c.coreRst
  corePipe : c.coreRst.rstPipe1R = true → c.coreRst.rstSyncR = true
  dmaPipe : c.dmaRst.rstPipe1R = true → c.dmaRst.rstSyncR = true
  coreReset : c.coreRst.rstSyncR = true →
    c.latch = .reset ∧ c.orch = .reset ∧ c.bramEdge = .cleared ∧ c.capturing = false
  dmaReset : c.dmaRst.rstSyncR = true →
    c.enable1ff = false ∧ c.enable2ff = false ∧ c.enable3ff = false ∧
      c.dmaEdge = .cleared ∧ c.transferring = false

/-- No high enable level follows a low one on its way to the DMA controller. -/
def EnableFalls (c : Control) : Prop :=
  (c.orch.dmaEnableR = true → c.enable1ff = true) ∧ (c.enable1ff = true → c.enable2ff = true) ∧
    (c.enable2ff = true → c.enable3ff = true) ∧ (c.enable3ff = true → c.dmaEdge.prevD = true)

/-- The enable level is high, and at most one low stretch is on its way. -/
def EnableRises (c : Control) : Prop :=
  c.orch.dmaEnableR = true ∧
    (c.enable1ff = false → c.enable2ff = true →
      c.enable3ff = true ∧ c.dmaEdge.prevD = true) ∧
    (c.enable1ff = false → c.enable3ff = true → c.dmaEdge.prevD = true) ∧
    (c.enable2ff = false → c.enable3ff = true → c.dmaEdge.prevD = true)

/-- The enable level rises, or is about to. -/
def EnableWaits (c : Control) : Prop :=
  c.orch.dmaEnableR = false ∧ EnableFalls c ∨ EnableRises c

/-- The enable level is high everywhere. -/
def EnableHigh (c : Control) : Prop :=
  c.orch.dmaEnableR = true ∧ c.enable1ff = true ∧ c.enable2ff = true ∧ c.enable3ff = true ∧
    c.dmaEdge.prevD = true

/-- The ready level of the DMA controller has risen once, after reset or long ago. -/
def ReadyRises (c : Control) : Prop :=
  (c.orch.uDmaEdgeDetector.prevD = true → c.orch.dmaReady3ff = true) ∧
    (c.orch.dmaReady3ff = true → c.orch.dmaReady2ff = true) ∧
    (c.orch.dmaReady2ff = true → c.orch.dmaReady1ff = true)

/-- The ready level is high everywhere. -/
def ReadyHigh (c : Control) : Prop :=
  c.orch.dmaReady1ff = true ∧ c.orch.dmaReady2ff = true ∧ c.orch.dmaReady3ff = true ∧
    c.orch.uDmaEdgeDetector.prevD = true

/-- No high ready level follows a low one. -/
def ReadyFalls (c : Control) : Prop :=
  (c.orch.dmaReady1ff = true → c.orch.dmaReady2ff = true) ∧
    (c.orch.dmaReady2ff = true → c.orch.dmaReady3ff = true) ∧
    (c.orch.dmaReady3ff = true → c.orch.uDmaEdgeDetector.prevD = true)

/-- At most one low stretch of the ready level is on its way. -/
def ReadyDips (c : Control) : Prop :=
  (c.orch.dmaReady1ff = false → c.orch.dmaReady2ff = true →
      c.orch.dmaReady3ff = true ∧ c.orch.uDmaEdgeDetector.prevD = true) ∧
    (c.orch.dmaReady1ff = false → c.orch.dmaReady3ff = true →
      c.orch.uDmaEdgeDetector.prevD = true) ∧
    (c.orch.dmaReady2ff = false → c.orch.dmaReady3ff = true →
      c.orch.uDmaEdgeDetector.prevD = true)

/-- A word does not get further into the core than the ready level: neither was
there at the end of the reset. -/
def ReadyLeads (c : Control) : Prop :=
  (c.latch.axi1ffR ≠ 0#32 → c.orch.dmaReady1ff = true) ∧
    (c.latch.axi2ffR ≠ 0#32 → c.orch.dmaReady2ff = true) ∧
    (c.latch.axi3ffR ≠ 0#32 → c.orch.dmaReady3ff = true)

/-- The read-out side is at rest. -/
def Quiet (c : Control) : Prop :=
  c.transferring = false ∧ EnableFalls c ∧ ReadyRises c ∧ ReadyLeads c

/-- The order is still executed, or it was just replaced by another word. -/
def OrderStands (c : Control) : Prop :=
  c.cmd = .getFrame ∨ c.latch.uStrobeEdgeDetector.prevD = true

/-- The capture side in each phase: the state of the orchestrator, the capture
enable and its two detectors. -/
def CaptureAt (c : Control) : Phase → Prop
  | .armed =>
      c.orch.dmaStateR = .armed ∧ c.orch.bramEnableR = false ∧ c.bramEdge.prevD = false ∧
        c.orch.bramEdgeAcquiredR = false ∧ c.capturing = false
  | .ordered =>
      c.orch.dmaStateR = .runBram ∧ c.orch.bramEnableR = false ∧ c.bramEdge.prevD = false ∧
        c.orch.bramEdgeAcquiredR = false ∧ c.orch.bramReadyR = true ∧
        c.orch.uBramEdgeDetector.prevD = true ∧ c.capturing = false ∧ OrderStands c
  | .enabling =>
      c.orch.dmaStateR = .runBram ∧ c.orch.bramEnableR = true ∧ c.bramEdge.prevD = false ∧
        c.orch.bramEdgeAcquiredR = false ∧ c.orch.bramReadyR = true ∧
        c.orch.uBramEdgeDetector.prevD = true ∧ c.capturing = false
  | .capturing =>
      c.orch.dmaStateR = .runBram ∧ c.orch.bramEnableR = true ∧ c.bramEdge.prevD = true ∧
        c.orch.bramEdgeAcquiredR = false ∧
        (c.orch.bramReadyR = true → c.orch.uBramEdgeDetector.prevD = true) ∧ c.capturing = true
  | .captured =>
      c.orch.dmaStateR = .runBram ∧ c.orch.bramEnableR = true ∧ c.bramEdge.prevD = true ∧
        c.capturing = false
  | .waiting | .transferring | .finished =>
      c.orch.dmaStateR = .runAxi ∧ c.capturing = false ∧
        (c.orch.bramEnableR = true → c.bramEdge.prevD = true)
  | .stale =>
      c.orch.dmaStateR = .stale ∧ c.orch.bramEnableR = false ∧ c.capturing = false

/-- The read-out side in each phase: the transfer, the enable on its way to it
and the ready level on its way back. -/
def ReadOutAt (c : Control) : Phase → Prop
  | .waiting =>
      c.transferring = false ∧ ReadyHigh c ∧ EnableWaits c
  | .transferring => c.transferring = true ∧ EnableHigh c ∧ ReadyFalls c
  | .finished => c.transferring = false ∧ EnableHigh c ∧ ReadyDips c
  | _ => Quiet c

/-- The control registers in each phase. -/
structure At (c : Control) (p : Phase) : Prop where
  sound : Sound c
  capture : CaptureAt c p
  readOut : ReadOutAt c p

/-- The registers are sound after reset. -/
theorem sound_released (w : BitVec 32) : Sound (released w) where
  bramRst := rfl
  corePipe := fun _ => rfl
  dmaPipe := fun _ => rfl
  coreReset := fun _ => ⟨rfl, rfl, rfl, rfl⟩
  dmaReset := fun _ => ⟨rfl, rfl, rfl, rfl, rfl⟩

/-- A reset is released in the first phase. -/
theorem at_released (w : BitVec 32) : At (released w) .armed where
  sound := sound_released w
  capture := ⟨rfl, rfl, rfl, rfl, rfl⟩
  readOut := by simp [ReadOutAt, Quiet, EnableFalls, ReadyRises, ReadyLeads, released,
    PdhCore.Orchestrator.reset, PdhCore.Latch.reset, PosedgeDetector.cleared]

/-! ## Soundness is preserved -/

section Step

variable {c : Control}

/-- An edge of the core clock keeps them sound. -/
theorem Sound.pdhEdge (hc : Sound c) (last : Bool) : Sound (c.pdhEdge last) where
  bramRst := by simp [Control.pdhEdge, hc.bramRst]
  corePipe := by simp [Control.pdhEdge]
  dmaPipe := hc.dmaPipe
  coreReset := by
    intro hpipe
    have hsync := hc.corePipe hpipe
    obtain ⟨-, horch, -⟩ := hc.coreReset hsync
    simp [Control.pdhEdge, hsync, PdhCore.Latch.step, PdhCore.Orchestrator.step, nextCapturing,
      hc.bramRst, horch, PdhCore.Orchestrator.reset, PosedgeDetector.cleared]
  dmaReset := hc.dmaReset

/-- So does an edge of {lit}`fclk0`. -/
theorem Sound.fclkEdge (hc : Sound c) (done : Bool) : Sound (c.fclkEdge done) where
  bramRst := hc.bramRst
  corePipe := hc.corePipe
  dmaPipe := by simp [Control.fclkEdge]
  coreReset := hc.coreReset
  dmaReset := by
    intro hpipe
    have hsync := hc.dmaPipe hpipe
    obtain ⟨-, -, h3, -⟩ := hc.dmaReset hsync
    simp [Control.fclkEdge, hsync, nextTransferring, h3, PosedgeDetector.cleared]

/-- So does every event. -/
theorem Sound.step (hc : Sound c) (e : Tick) : Sound (c.step e) := by
  cases e with
  | word w => exact ⟨hc.bramRst, hc.corePipe, hc.dmaPipe, hc.coreReset, hc.dmaReset⟩
  | pdh last => exact hc.pdhEdge last
  | fclk done => exact hc.fclkEdge done
  | both last done =>
      have hpdh := hc.pdhEdge last
      have hfclk := hc.fclkEdge done
      exact ⟨hpdh.bramRst, hpdh.corePipe, hfclk.dmaPipe, hpdh.coreReset, hfclk.dmaReset⟩

/-- The core is out of reset once the orchestrator has left its first state. -/
theorem Sound.coreRst_of_ne_armed (hc : Sound c) (h : c.orch.dmaStateR ≠ .armed) :
    c.coreRst.rstSyncR = false := by
  cases hsync : c.coreRst.rstSyncR with
  | false => rfl
  | true =>
      obtain ⟨-, horch, -⟩ := hc.coreReset hsync
      exact absurd (congrArg PdhCore.Orchestrator.dmaStateR horch) h

/-! ## The capture side -/

/-- An order stands for one more edge. -/
theorem orderStands_pdhEdge (hsync : c.coreRst.rstSyncR = false) (hcmd : c.cmd = .getFrame)
    (last : Bool) : OrderStands (c.pdhEdge last) := by
  cases hedge : c.latch.strobeEdgeW with
  | false =>
      left
      simpa [Control.cmd, Control.pdhEdge, hsync, PdhCore.Latch.step, PdhCore.Latch.nextAxiFromPsW,
        hedge] using hcmd
  | true =>
      right
      have hstrobe := ((PosedgeDetector.q_eq_true_iff _ _).mp hedge).1
      simpa [Control.pdhEdge, hsync, PdhCore.Latch.step] using hstrobe

/-- An armed capture waits for an order. -/
theorem captureAt_armed (hc : Sound c) (h : CaptureAt c .armed) (last : Bool) :
    CaptureAt (c.pdhEdge last) .armed ∨
      (c.coreRst.rstSyncR = false ∧ c.cmd = .getFrame) ∧
        CaptureAt (c.pdhEdge last) .ordered := by
  obtain ⟨hst, hben, hbep, hacq, hcap⟩ := h
  cases hsync : c.coreRst.rstSyncR with
  | true =>
      left
      simp [CaptureAt, Control.pdhEdge, hsync, PdhCore.Orchestrator.step,
        PdhCore.Orchestrator.reset, nextCapturing, hc.bramRst, hben]
  | false =>
      by_cases horder : c.orch.bramReadyR = true ∧ c.cmd = .getFrame
      · right
        have hstands := orderStands_pdhEdge hsync horder.2 last
        simp only [CaptureAt, hstands]
        simp [Control.pdhEdge, hsync, PdhCore.Orchestrator.step, hst, hben, hbep, hcap,
          PdhCore.Orchestrator.nextDmaStateW, PdhCore.Orchestrator.nextBramEnableW,
          PdhCore.Orchestrator.nextBramEdgeAcquiredW, horder, nextCapturing, bramStart,
          PosedgeDetector.q]
      · left
        simp [CaptureAt, Control.pdhEdge, hsync, PdhCore.Orchestrator.step, hst, hben, hbep, hcap,
          PdhCore.Orchestrator.nextDmaStateW, PdhCore.Orchestrator.nextBramEnableW,
          PdhCore.Orchestrator.nextBramEdgeAcquiredW, horder, nextCapturing, bramStart,
          PosedgeDetector.q]

/-- An order takes one edge to reach the enable level. -/
theorem captureAt_ordered (hc : Sound c) (h : CaptureAt c .ordered) (last : Bool) :
    CaptureAt (c.pdhEdge last) .enabling := by
  obtain ⟨hst, hben, hbep, hacq, hready, hprev, hcap, -⟩ := h
  have hsync := hc.coreRst_of_ne_armed (by simp [hst])
  simp [CaptureAt, Control.pdhEdge, hsync, PdhCore.Orchestrator.step, hst, hben, hbep, hacq,
    hready, hprev, hcap, PdhCore.Orchestrator.nextDmaStateW,
    PdhCore.Orchestrator.nextBramEnableW, PdhCore.Orchestrator.nextBramEdgeAcquiredW,
    PdhCore.Orchestrator.bramReadyEdgeW, nextCapturing, bramStart, PosedgeDetector.q]

/-- The level takes one edge to start the capture. -/
theorem captureAt_enabling (hc : Sound c) (h : CaptureAt c .enabling) (last : Bool) :
    CaptureAt (c.pdhEdge last) .capturing := by
  obtain ⟨hst, hben, hbep, hacq, hready, hprev, hcap⟩ := h
  have hsync := hc.coreRst_of_ne_armed (by simp [hst])
  simp [CaptureAt, Control.pdhEdge, hsync, hc.bramRst, PdhCore.Orchestrator.step, hst, hben,
    hbep, hacq, hready, hprev, hcap, PdhCore.Orchestrator.nextDmaStateW,
    PdhCore.Orchestrator.nextBramEnableW, PdhCore.Orchestrator.nextBramEdgeAcquiredW,
    PdhCore.Orchestrator.bramReadyEdgeW, nextCapturing, bramStart, PosedgeDetector.q]

/-- A capture ends at its last address. -/
theorem captureAt_capturing (hc : Sound c) (h : CaptureAt c .capturing) (last : Bool) :
    CaptureAt (c.pdhEdge last) (if last then .captured else .capturing) := by
  obtain ⟨hst, hben, hbep, hacq, hready, hcap⟩ := h
  have hsync := hc.coreRst_of_ne_armed (by simp [hst])
  have hedge : c.orch.bramReadyEdgeW = false := by
    simpa [PdhCore.Orchestrator.bramReadyEdgeW, PosedgeDetector.q] using hready
  cases last <;>
    simp [CaptureAt, Control.pdhEdge, hsync, hc.bramRst, PdhCore.Orchestrator.step, hst, hben,
      hacq, hedge, hcap, PdhCore.Orchestrator.nextDmaStateW,
      PdhCore.Orchestrator.nextBramEnableW, PdhCore.Orchestrator.nextBramEdgeAcquiredW,
      nextCapturing]

/-- A captured frame waits for the read-out side to be ready. -/
theorem captureAt_captured (hc : Sound c) (h : CaptureAt c .captured) (last : Bool) :
    CaptureAt (c.pdhEdge last)
      (if c.orch.bramEdgeAcquiredR && c.orch.dmaReady3ff then .waiting else .captured) := by
  obtain ⟨hst, hben, hbep, hcap⟩ := h
  have hsync := hc.coreRst_of_ne_armed (by simp [hst])
  split_ifs with hacq <;>
    simp_all [CaptureAt, Control.pdhEdge, hc.bramRst, PdhCore.Orchestrator.step,
      PdhCore.Orchestrator.nextDmaStateW, PdhCore.Orchestrator.nextBramEnableW,
      nextCapturing, bramStart, PosedgeDetector.q]

/-- A transfer is over at the next edge of the ready level. -/
theorem captureAt_waiting (hc : Sound c) (h : CaptureAt c .waiting) (last : Bool) :
    CaptureAt (c.pdhEdge last) (if c.orch.dmaReadyEdgeW then .stale else .waiting) := by
  obtain ⟨hst, hcap, hben⟩ := h
  have hsync := hc.coreRst_of_ne_armed (by simp [hst])
  have hstart : c.bramStart = false := by
    simpa [bramStart, PosedgeDetector.q] using hben
  split_ifs with hedge <;>
    simp [CaptureAt, Control.pdhEdge, hsync, hc.bramRst, PdhCore.Orchestrator.step, hst, hcap,
      hedge, hstart, PdhCore.Orchestrator.nextDmaStateW, PdhCore.Orchestrator.nextBramEnableW,
      nextCapturing]

/-- A frame that was read out is stale as long as its order stands. -/
theorem captureAt_stale (hc : Sound c) (h : CaptureAt c .stale) (last : Bool) :
    CaptureAt (c.pdhEdge last) (if c.cmd = .getFrame then .stale else .armed) := by
  obtain ⟨hst, hben, hcap⟩ := h
  have hsync := hc.coreRst_of_ne_armed (by simp [hst])
  split_ifs with hcmd <;>
    simp [CaptureAt, Control.pdhEdge, hsync, hc.bramRst, PdhCore.Orchestrator.step, hst, hcap,
      hben, hcmd, PdhCore.Orchestrator.nextDmaStateW, PdhCore.Orchestrator.nextBramEnableW,
      PdhCore.Orchestrator.nextBramEdgeAcquiredW, nextCapturing, bramStart, PosedgeDetector.q]

/-! ## The read-out side -/

/-- At rest the ready level stays in front of the words. -/
theorem ReadyLeads.pdhEdge (h : ReadyLeads c) (hidle : c.transferring = false) (last : Bool) :
    ReadyLeads (c.pdhEdge last) := by
  cases hsync : c.coreRst.rstSyncR <;>
    simp_all [ReadyLeads, Control.pdhEdge, PdhCore.Latch.step, PdhCore.Latch.reset,
      PdhCore.Orchestrator.step]

/-- A read-out side at rest stays at rest until the transfer is asked for. -/
theorem Quiet.step (hc : Sound c) (h : Quiet c) (hst : c.orch.dmaStateR ≠ .runAxi) (e : Tick) :
    Quiet (c.step e) := by
  have hden : c.orch.nextDmaEnableW = false := by
    unfold PdhCore.Orchestrator.nextDmaEnableW
    split <;> simp_all
  have hreset := hc.dmaReset
  obtain ⟨hidle, ⟨h1, h2, h3, h4⟩, hready, hleads⟩ := h
  have hstart : c.dmaStart = false := by
    simpa [dmaStart, PosedgeDetector.q] using h4
  cases e with
  | word w => exact ⟨hidle, ⟨h1, h2, h3, h4⟩, hready, hleads⟩
  | pdh last =>
      refine ⟨hidle, ?_, ?_, hleads.pdhEdge hidle last⟩ <;> cases hsync : c.coreRst.rstSyncR <;>
        simp_all [EnableFalls, ReadyRises, Control.step, Control.pdhEdge,
          PdhCore.Orchestrator.step, PdhCore.Orchestrator.reset, PosedgeDetector.cleared]
  | fclk done =>
      refine ⟨?_, ?_, hready, hleads⟩ <;> cases hsync : c.dmaRst.rstSyncR <;>
        simp_all [EnableFalls, Control.step, Control.fclkEdge, nextTransferring,
          PosedgeDetector.cleared]
  | both last done =>
      refine ⟨?_, ?_, ?_, hleads.pdhEdge hidle last⟩ <;> cases hsync : c.coreRst.rstSyncR <;>
        cases hsync' : c.dmaRst.rstSyncR <;>
        simp_all [EnableFalls, ReadyRises, Control.step, Control.pdhEdge, Control.fclkEdge,
          PdhCore.Orchestrator.step, PdhCore.Orchestrator.reset, nextTransferring,
          PosedgeDetector.cleared]

section RunAxi

variable (hc : Sound c) (hst : c.orch.dmaStateR = .runAxi)

include hst

theorem nextDmaEnableW_runAxi : c.orch.nextDmaEnableW = true := by
  simp [PdhCore.Orchestrator.nextDmaEnableW, hst]

include hc

theorem coreRst_runAxi : c.coreRst.rstSyncR = false :=
  hc.coreRst_of_ne_armed (by simp [hst])

/-- The enable level comes nearer until the transfer starts. -/
theorem EnableWaits.step (h : EnableWaits c) (hidle : c.transferring = false) (e : Tick)
    (hstay : (c.step e).transferring = false) : EnableWaits (c.step e) := by
  have hsync := coreRst_runAxi hc hst
  have hden := nextDmaEnableW_runAxi hst
  have hreset := hc.dmaReset
  cases e with
  | word w => exact h
  | pdh last =>
      right
      rcases h with ⟨hlow, hfalls⟩ | hrises <;>
        simp_all [EnableRises, EnableFalls, Control.step, Control.pdhEdge,
          PdhCore.Orchestrator.step]
  | fclk done =>
      simp only [Control.step, Control.fclkEdge, nextTransferring, hidle, dmaStart,
        PosedgeDetector.q] at hstay
      rcases h with ⟨hlow, hfalls⟩ | hrises
      · left
        cases hsync' : c.dmaRst.rstSyncR <;>
          simp_all [EnableFalls, Control.step, Control.fclkEdge, PosedgeDetector.cleared]
      · right
        cases hsync' : c.dmaRst.rstSyncR <;>
          simp_all [EnableRises, Control.step, Control.fclkEdge, PosedgeDetector.cleared]
  | both last done =>
      simp only [Control.step, Control.fclkEdge, nextTransferring, hidle, dmaStart,
        PosedgeDetector.q] at hstay
      right
      rcases h with ⟨hlow, hfalls⟩ | hrises <;> cases hsync' : c.dmaRst.rstSyncR <;>
        simp_all [EnableFalls, EnableRises, Control.step, Control.pdhEdge, Control.fclkEdge,
          PdhCore.Orchestrator.step, PosedgeDetector.cleared]

omit hc in
/-- Then it stays high while the transfer is asked for. -/
theorem EnableHigh.step (hc : Sound c) (h : EnableHigh c) (e : Tick) : EnableHigh (c.step e) := by
  have hsync := coreRst_runAxi hc hst
  have hden := nextDmaEnableW_runAxi hst
  have hreset := hc.dmaReset
  cases e <;> cases hsync' : c.dmaRst.rstSyncR <;>
    simp_all [EnableHigh, Control.step, Control.pdhEdge, Control.fclkEdge,
      PdhCore.Orchestrator.step]

end RunAxi

section Ready

variable (hsync : c.coreRst.rstSyncR = false)

include hsync

/-- A ready level that is high stays high at rest. -/
theorem ReadyHigh.step (h : ReadyHigh c) (hidle : c.transferring = false) (e : Tick) :
    ReadyHigh (c.step e) := by
  cases e <;>
    simp_all [ReadyHigh, Control.step, Control.pdhEdge, Control.fclkEdge,
      PdhCore.Orchestrator.step]

/-- During a transfer the ready level only falls. -/
theorem ReadyFalls.step (h : ReadyFalls c) (htr : c.transferring = true) (e : Tick) :
    ReadyFalls (c.step e) := by
  cases e <;>
    simp_all [ReadyFalls, Control.step, Control.pdhEdge, Control.fclkEdge,
      PdhCore.Orchestrator.step]

/-- At rest no second low stretch of the ready level is added. -/
theorem ReadyDips.step (h : ReadyDips c) (hidle : c.transferring = false) (e : Tick) :
    ReadyDips (c.step e) := by
  cases e <;>
    simp_all [ReadyDips, Control.step, Control.pdhEdge, Control.fclkEdge,
      PdhCore.Orchestrator.step]

end Ready

/-- A transfer starts on the first arrival of the enable, and finds it high
everywhere behind. -/
theorem EnableWaits.high (h : EnableWaits c) (hst : c.orch.dmaStateR = .runAxi) (hc : Sound c)
    (hidle : c.transferring = false) {e : Tick} (hmove : (c.step e).transferring = true) :
    EnableHigh (c.step e) := by
  have hsync := coreRst_runAxi hc hst
  have hden := nextDmaEnableW_runAxi hst
  have hbehind : c.dmaStart = true → c.orch.dmaEnableR = true ∧ c.enable1ff = true ∧
      c.enable2ff = true ∧ c.enable3ff = true := by
    intro hstart
    obtain ⟨h3, h4⟩ := (PosedgeDetector.q_eq_true_iff _ _).mp hstart
    rcases h with ⟨-, hfalls⟩ | ⟨hhigh, -, h13, h23⟩
    · exact absurd (hfalls.2.2.2 h3) (by simp [h4])
    · refine ⟨hhigh, ?_, ?_, h3⟩
      · by_contra hlow
        exact absurd (h13 (eq_false_of_ne_true hlow) h3) (by simp [h4])
      · by_contra hlow
        exact absurd (h23 (eq_false_of_ne_true hlow) h3) (by simp [h4])
  cases e with
  | word w => exact absurd hmove (by simp [Control.step, hidle])
  | pdh last => exact absurd hmove (by simp [Control.step, Control.pdhEdge, hidle])
  | fclk done =>
      cases hsync' : c.dmaRst.rstSyncR <;>
        simp_all [EnableHigh, Control.step, Control.fclkEdge, nextTransferring]
  | both last done =>
      cases hsync' : c.dmaRst.rstSyncR <;>
        simp_all [EnableHigh, Control.step, Control.pdhEdge, Control.fclkEdge, nextTransferring,
          PdhCore.Orchestrator.step]

theorem ReadyHigh.falls (h : ReadyHigh c) : ReadyFalls c := by
  simp_all [ReadyHigh, ReadyFalls]

theorem ReadyFalls.dips (h : ReadyFalls c) : ReadyDips c := by
  simp_all [ReadyFalls, ReadyDips]

/-- No edge of the ready level is seen while it falls. -/
theorem ReadyFalls.noEdge (h : ReadyFalls c) : c.orch.dmaReadyEdgeW = false := by
  simpa [PdhCore.Orchestrator.dmaReadyEdgeW, PosedgeDetector.q] using h.2.2

/-- Behind an edge of the ready level it is high. -/
theorem ReadyDips.before (h : ReadyDips c) (hedge : c.orch.dmaReadyEdgeW = true) :
    c.orch.dmaReady1ff = true ∧ c.orch.dmaReady2ff = true ∧ c.orch.dmaReady3ff = true := by
  obtain ⟨h3, h4⟩ := (PosedgeDetector.q_eq_true_iff _ _).mp hedge
  obtain ⟨-, h13, h23⟩ := h
  refine ⟨?_, ?_, h3⟩
  · by_contra hlow
    exact absurd (h13 (eq_false_of_ne_true hlow) h3) (by simp [h4])
  · by_contra hlow
    exact absurd (h23 (eq_false_of_ne_true hlow) h3) (by simp [h4])

/-! ## One event -/

/-- What a phase needs to end besides an edge: a frame is ordered by
{lit}`CMD_GET_FRAME`, completed by the edge of the ready level, and released by
another command. -/
def MayLeave (c : Control) : Phase → Prop
  | .armed => c.coreRst.rstSyncR = false ∧ c.cmd = .getFrame
  | .finished => c.orch.dmaReadyEdgeW = true
  | .stale => c.cmd ≠ .getFrame
  | _ => True

/-- The capture side moves on edges of {lit}`pdh_clk` only. -/
theorem CaptureAt.step {p q : Phase} {G : Prop} (h : CaptureAt c p)
    (hpdh : ∀ last, CaptureAt (c.pdhEdge last) p ∨ G ∧ CaptureAt (c.pdhEdge last) q) (e : Tick) :
    CaptureAt (c.step e) p ∨ G ∧ CaptureAt (c.step e) q := by
  cases e with
  | word w => exact .inl (by cases p <;> exact h)
  | fclk done => exact .inl (by cases p <;> exact h)
  | pdh last => exact hpdh last
  | both last done =>
      rcases hpdh last with hstay | ⟨hG, hmove⟩
      · exact .inl (by cases p <;> exact hstay)
      · exact .inr ⟨hG, by cases q <;> exact hmove⟩

/-- While the orchestrator does not run the transfer, only the capture side
moves. -/
theorem At.step_quiet {p q : Phase} (h : At c p) (hst : c.orch.dmaStateR ≠ .runAxi)
    (hquiet : Quiet c) (hp : ∀ c, Quiet c → ReadOutAt c p) (hq : ∀ c, Quiet c → ReadOutAt c q)
    (hpdh : ∀ last,
      CaptureAt (c.pdhEdge last) p ∨ MayLeave c p ∧ CaptureAt (c.pdhEdge last) q) (e : Tick) :
    At (c.step e) p ∨ MayLeave c p ∧ At (c.step e) q := by
  have hsound := h.sound.step e
  have hquiet' := hquiet.step h.sound hst e
  rcases h.capture.step hpdh e with hstay | ⟨hleave, hmove⟩
  · exact .inl ⟨hsound, hstay, hp _ hquiet'⟩
  · exact .inr ⟨hleave, hsound, hmove, hq _ hquiet'⟩

/-- The order to read out finds the ready level high. -/
theorem readyHigh_pdhEdge (hsync : c.coreRst.rstSyncR = false) (h : Quiet c)
    (hready : c.orch.dmaReady3ff = true) (last : Bool) : ReadyHigh (c.pdhEdge last) := by
  obtain ⟨hidle, -, ⟨-, h32, h21⟩, -⟩ := h
  simp [ReadyHigh, Control.pdhEdge, hsync, PdhCore.Orchestrator.step, hidle, hready, h32 hready,
    h21 (h32 hready)]

/-- A captured frame stays captured, or waits for the transfer. -/
theorem At.step_captured (h : At c .captured) (e : Tick) :
    At (c.step e) .captured ∨ At (c.step e) .waiting := by
  have hst : c.orch.dmaStateR = .runBram := h.capture.1
  have hsync := h.sound.coreRst_of_ne_armed (by simp [hst])
  have hquiet : Quiet (c.step e) := Quiet.step h.sound h.readOut (by simp [hst]) e
  have hedge : ∀ last, CaptureAt (c.pdhEdge last) .captured ∨
      (ReadyHigh (c.pdhEdge last) ∧ (c.pdhEdge last).orch.dmaEnableR = false) ∧
        CaptureAt (c.pdhEdge last) .waiting := by
    intro last
    have hnext := captureAt_captured h.sound h.capture last
    cases hgo : c.orch.bramEdgeAcquiredR && c.orch.dmaReady3ff with
    | false => exact .inl (by simpa [hgo] using hnext)
    | true =>
        have hready : c.orch.dmaReady3ff = true := ((Bool.and_eq_true _ _).mp hgo).2
        refine .inr ⟨⟨readyHigh_pdhEdge hsync h.readOut hready last, ?_⟩, ?_⟩
        · simp [Control.pdhEdge, hsync, PdhCore.Orchestrator.step,
            PdhCore.Orchestrator.nextDmaEnableW, hst]
        · simpa [hgo] using hnext
  cases e with
  | word w => exact .inl ⟨h.sound.step _, h.capture, hquiet⟩
  | fclk done => exact .inl ⟨h.sound.step _, h.capture, hquiet⟩
  | pdh last =>
      rcases hedge last with hstay | ⟨⟨hready, hlow⟩, hmove⟩
      · exact .inl ⟨h.sound.step _, hstay, hquiet⟩
      · exact .inr ⟨h.sound.step _, hmove, hquiet.1, hready, .inl ⟨hlow, hquiet.2.1⟩⟩
  | both last done =>
      rcases hedge last with hstay | ⟨⟨hready, hlow⟩, hmove⟩
      · exact .inl ⟨h.sound.step _, hstay, hquiet⟩
      · exact .inr ⟨h.sound.step _, hmove, hquiet.1, hready, .inl ⟨hlow, hquiet.2.1⟩⟩

/-- The capture side rests while the transfer is awaited, runs or has ended,
until the edge of the ready level. -/
theorem captureAt_runAxi (hc : Sound c) (h : CaptureAt c .waiting)
    (hedge : c.orch.dmaReadyEdgeW = false) (e : Tick) : CaptureAt (c.step e) .waiting := by
  have hpdh : ∀ last, CaptureAt (c.pdhEdge last) .waiting := by
    intro last
    simpa [hedge] using captureAt_waiting hc h last
  cases e with
  | word w => exact h
  | fclk done => exact h
  | pdh last => exact hpdh last
  | both last done => exact hpdh last

/-- A waiting frame waits on, or its transfer starts. -/
theorem At.step_waiting (h : At c .waiting) (e : Tick) :
    At (c.step e) .waiting ∨ At (c.step e) .transferring := by
  have hst : c.orch.dmaStateR = .runAxi := h.capture.1
  have hsync := coreRst_runAxi h.sound hst
  have hsound := h.sound.step e
  obtain ⟨hidle, hready, henable⟩ := h.readOut
  have hcapture := captureAt_runAxi h.sound h.capture hready.falls.noEdge e
  have hready' := hready.step hsync hidle e
  cases htr : (c.step e).transferring with
  | false =>
      exact .inl ⟨hsound, hcapture, htr, hready', henable.step h.sound hst hidle e htr⟩
  | true =>
      exact .inr ⟨hsound, hcapture, htr, henable.high hst h.sound hidle htr, hready'.falls⟩

/-- A transfer goes on, or it is finished. -/
theorem At.step_transferring (h : At c .transferring) (e : Tick) :
    At (c.step e) .transferring ∨ At (c.step e) .finished := by
  have hst : c.orch.dmaStateR = .runAxi := h.capture.1
  have hsync := coreRst_runAxi h.sound hst
  have hsound := h.sound.step e
  obtain ⟨hbusy, henable, hready⟩ := h.readOut
  have hcapture := captureAt_runAxi h.sound h.capture hready.noEdge e
  have henable' := henable.step hst h.sound e
  have hready' := hready.step hsync hbusy e
  cases htr : (c.step e).transferring with
  | false => exact .inr ⟨hsound, hcapture, htr, henable', hready'.dips⟩
  | true => exact .inl ⟨hsound, hcapture, htr, henable', hready'⟩

/-- The enable is still high when the transfer ends, so nothing starts. -/
theorem EnableHigh.rests (h : EnableHigh c) (hidle : c.transferring = false) (e : Tick) :
    (c.step e).transferring = false := by
  have hstart : c.dmaStart = false := by
    simp [dmaStart, PosedgeDetector.q, h.2.2.2.2]
  cases e <;>
    simp [Control.step, Control.pdhEdge, Control.fclkEdge, nextTransferring, hidle, hstart]

/-- After the edge that completes a transfer the ready level is high everywhere. -/
theorem ReadyDips.high (h : ReadyDips c) (hsync : c.coreRst.rstSyncR = false)
    (hidle : c.transferring = false) (hedge : c.orch.dmaReadyEdgeW = true) (last : Bool) :
    ReadyHigh (c.pdhEdge last) := by
  obtain ⟨hr1, hr2, hr3⟩ := h.before hedge
  simp [ReadyHigh, Control.pdhEdge, hsync, PdhCore.Orchestrator.step, hidle, hr1, hr2, hr3]

theorem ReadyHigh.rises (h : ReadyHigh c) : ReadyRises c :=
  ⟨fun _ => h.2.2.1, fun _ => h.2.1, fun _ => h.1⟩

theorem ReadyHigh.leads (h : ReadyHigh c) : ReadyLeads c :=
  ⟨fun _ => h.1, fun _ => h.2.1, fun _ => h.2.2.1⟩

/-- The edge that completes a transfer leaves the read-out side at rest. -/
theorem quiet_of_edge (hc : Sound c) (hst : c.orch.dmaStateR = .runAxi)
    (hidle : c.transferring = false) (henable : EnableHigh c) (hready : ReadyDips c)
    (hedge : c.orch.dmaReadyEdgeW = true) {e : Tick} {last : Bool}
    (horch : (c.step e).orch = (c.pdhEdge last).orch) : Quiet (c.step e) := by
  have hhigh := hready.high (coreRst_runAxi hc hst) hidle hedge last
  obtain ⟨-, h1, h2, h3, h4⟩ := henable.step hst hc e
  have hready' : ReadyHigh (c.step e) := by
    rw [ReadyHigh, horch]
    exact hhigh
  exact ⟨henable.rests hidle e, ⟨fun _ => h1, fun _ => h2, fun _ => h3, fun _ => h4⟩,
    hready'.rises, hready'.leads⟩

/-- A finished transfer is noticed at the edge of the ready level, and not before. -/
theorem At.step_finished (h : At c .finished) (e : Tick) :
    At (c.step e) .finished ∨ c.orch.dmaReadyEdgeW = true ∧ At (c.step e) .stale := by
  have hst : c.orch.dmaStateR = .runAxi := h.capture.1
  have hsync := coreRst_runAxi h.sound hst
  have hsound := h.sound.step e
  obtain ⟨hidle, henable, hready⟩ := h.readOut
  have henable' := henable.step hst h.sound e
  have hidle' := henable.rests hidle e
  have hready' := hready.step hsync hidle e
  cases hedge : c.orch.dmaReadyEdgeW with
  | false =>
      have hcapture := captureAt_runAxi h.sound h.capture hedge e
      exact .inl ⟨hsound, hcapture, hidle', henable', hready'⟩
  | true =>
      have hstale : ∀ last, CaptureAt (c.pdhEdge last) .stale := by
        intro last
        simpa [hedge] using captureAt_waiting h.sound h.capture last
      cases e with
      | word w => exact .inl ⟨hsound, h.capture, hidle', henable', hready'⟩
      | fclk done => exact .inl ⟨hsound, h.capture, hidle', henable', hready'⟩
      | pdh last =>
          have horch : (c.step (.pdh last)).orch = (c.pdhEdge last).orch := rfl
          have hquiet := quiet_of_edge h.sound hst hidle henable hready hedge horch
          exact .inr ⟨rfl, hsound, hstale last, hquiet⟩
      | both last done =>
          have horch : (c.step (.both last done)).orch = (c.pdhEdge last).orch := rfl
          have hquiet := quiet_of_edge h.sound hst hidle henable hready hedge horch
          exact .inr ⟨rfl, hsound, hstale last, hquiet⟩

/-- One event stays in the phase or makes the next move. -/
theorem phase_step {p : Phase} (h : At c p) (e : Tick) :
    At (c.step e) p ∨ MayLeave c p ∧ At (c.step e) p.next := by
  cases p with
  | armed =>
      exact h.step_quiet (q := .ordered) (by simp [h.capture.1])
        h.readOut (fun _ hq => hq) (fun _ hq => hq)
        (captureAt_armed h.sound h.capture) e
  | ordered =>
      exact h.step_quiet (q := .enabling) (by simp [h.capture.1])
        h.readOut (fun _ hq => hq) (fun _ hq => hq)
        (fun last => .inr ⟨trivial, captureAt_ordered h.sound h.capture last⟩) e
  | enabling =>
      exact h.step_quiet (q := .capturing) (by simp [h.capture.1])
        h.readOut (fun _ hq => hq) (fun _ hq => hq)
        (fun last => .inr ⟨trivial, captureAt_enabling h.sound h.capture last⟩) e
  | capturing =>
      apply h.step_quiet (q := .captured) (by simp [h.capture.1])
        h.readOut (fun _ hq => hq) (fun _ hq => hq)
      intro last
      have hnext := captureAt_capturing h.sound h.capture last
      cases last with
      | false => exact .inl hnext
      | true => exact .inr ⟨trivial, hnext⟩
  | captured => exact (h.step_captured e).imp_right fun hmove => ⟨trivial, hmove⟩
  | waiting => exact (h.step_waiting e).imp_right fun hmove => ⟨trivial, hmove⟩
  | transferring => exact (h.step_transferring e).imp_right fun hmove => ⟨trivial, hmove⟩
  | finished => exact h.step_finished e
  | stale =>
      apply h.step_quiet (q := .armed) (by simp [h.capture.1])
        h.readOut (fun _ hq => hq) (fun _ hq => hq)
      intro last
      have hnext := captureAt_stale h.sound h.capture last
      by_cases hcmd : c.cmd = .getFrame
      · rw [if_pos hcmd] at hnext
        exact .inl hnext
      · rw [if_neg hcmd] at hnext
        exact .inr ⟨hcmd, hnext⟩

end Step

end Control

/-! ## Moves along a run -/

/-- Position of a phase in the cycle. -/
def Phase.index : Phase → ℕ
  | .armed => 0
  | .ordered => 1
  | .enabling => 2
  | .capturing => 3
  | .captured => 4
  | .waiting => 5
  | .transferring => 6
  | .finished => 7
  | .stale => 8

/-- The phase after {lit}`i` moves. -/
def phaseAt (i : ℕ) : Phase := Phase.next^[i] .armed

theorem phaseAt_succ (i : ℕ) : phaseAt (i + 1) = (phaseAt i).next :=
  Function.iterate_succ_apply' _ _ _

/-- The phases go round in nine. -/
theorem index_iterate (p : Phase) (i : ℕ) : (Phase.next^[i] p).index = (p.index + i) % 9 := by
  have hnext : ∀ p : Phase, p.next.index = (p.index + 1) % 9 := by
    intro p
    cases p <;> rfl
  induction i with
  | zero => cases p <;> rfl
  | succ i ih =>
      rw [Function.iterate_succ_apply', hnext, ih]
      omega

theorem iterate_eq_iff (p q : Phase) (i : ℕ) :
    Phase.next^[i] p = q ↔ (p.index + i) % 9 = q.index := by
  have hinj : ∀ p q : Phase, p.index = q.index → p = q := by
    intro p q
    cases p <;> cases q <;> simp [Phase.index]
  rw [← index_iterate]
  exact ⟨congrArg Phase.index, hinj _ _⟩

theorem index_phaseAt (i : ℕ) : (phaseAt i).index = i % 9 := by
  rw [phaseAt, index_iterate, Phase.index, Nat.zero_add]

/-- A phase is met at every ninth move. -/
theorem phaseAt_eq_iff (i : ℕ) (p : Phase) : phaseAt i = p ↔ i % 9 = p.index := by
  rw [phaseAt, iterate_eq_iff, Phase.index, Nat.zero_add]

/-- Every run after a reset goes through the phases in order. -/
theorem exists_moves {P : Params} {rom : Nco.Rom} {s₀ : State P} {ins : ℕ → Event}
    (hs : AfterReset rom s₀) (hins : ∀ n, (ins n).NoReset) :
    ∃ m, Held m ∧
      (∀ n, Control.At (control (run (step rom) s₀ ins n)) (phaseAt (m n))) ∧
      ∀ n, m (n + 1) = m n + 1 →
        Control.MayLeave (control (run (step rom) s₀ ins n)) (phaseAt (m n)) := by
  obtain ⟨hrst, hcontrol⟩ := control_afterReset hs
  apply Clocked.exists_moves
    (A := fun n p => Control.At (control (run (step rom) s₀ ins n)) p)
    (L := fun n p => Control.MayLeave (control (run (step rom) s₀ ins n)) p)
  · rw [run_zero, hcontrol]
    exact Control.at_released _
  · intro n p h
    rw [run_succ, control_step (rstBit_run rom hrst hins n) rom (hins n)]
    exact Control.phase_step h _

end PdhTop
end PoundDreverHall
