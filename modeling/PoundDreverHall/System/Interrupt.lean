import PoundDreverHall.Frame.Control
import PoundDreverHall.System.Board

/-!
# System - interrupts

The interrupt of the fabric is stretched, brought to the other clock, and counted by the
UIO device.  A device that had nothing to report is readable only after the fabric has
raised its interrupt.

Main results:

- Theorem {lit}`Silent.step`: a move that raises no interrupt keeps the board silent.
- Theorem {lit}`exists_raise`: before a silent board becomes readable, the fabric raises
  its interrupt.
-/

namespace PoundDreverHall
namespace System

open Clocked PdhTop Server

variable {P : Params}

/-! ## Silent boards -/

/-- No interrupt is raised, counted and not read, or kept, and the line has no edge that
rises any more. -/
structure Silent (b : Board P) : Prop where
  irqR : b.fabric.uPdhCore.irqR = false
  stretch : b.fabric.irqStretchR ≠ 0#5 → b.fabric.irqSyncR.getLsbD 0 = true
  sync₁ : b.fabric.irqSyncR.getLsbD 0 = true → b.fabric.irqSyncR.getLsbD 1 = true
  sync₂ : b.fabric.irqSyncR.getLsbD 1 = true → b.fabric.irqSyncR.getLsbD 2 = true
  count : b.uio.count = b.uio.lastRead
  raised : b.uio.raised = false

/-- A silent device has nothing to report. -/
theorem Silent.not_readable {b : Board P} (h : Silent b) : b.uio.readable = false := by
  simp [Uio.readable, h.count]

/-- The next value of {lit}`irq_r`. -/
def raises (s : PdhTop.State P) : Bool :=
  PdhCore.nextIrqR s.uPdhCore.rst.rstSyncR s.uPdhCore.latch s.uPdhCore.orch

/-! ### The line -/

/-- Without an interrupt the stretch only runs out. -/
theorem nextIrqStretchR_ne_zero {s : PdhTop.State P} (hirq : s.uPdhCore.irqR = false)
    (hnext : nextIrqStretchR s ≠ 0#5) : s.irqStretchR ≠ 0#5 := by
  intro hzero
  apply hnext
  simp [nextIrqStretchR, PdhCore.irqO, hirq, hzero]

theorem getLsbD_nextIrqSyncR_zero (s : PdhTop.State P) :
    (nextIrqSyncR s).getLsbD 0 = (s.irqStretchR != 0#5) := by
  rw [nextIrqSyncR, BitVec.getLsbD_append]
  simp

theorem getLsbD_nextIrqSyncR_one (s : PdhTop.State P) :
    (nextIrqSyncR s).getLsbD 1 = s.irqSyncR.getLsbD 0 := by
  rw [nextIrqSyncR, BitVec.getLsbD_append]
  simp

theorem getLsbD_nextIrqSyncR_two (s : PdhTop.State P) :
    (nextIrqSyncR s).getLsbD 2 = s.irqSyncR.getLsbD 1 := by
  rw [nextIrqSyncR, BitVec.getLsbD_append]
  simp

section Step

variable {b : Board P} (h : Silent b) (hrst : PdhCore.rstBit b.fabric.axiFromPs = false)

include h

/-- A write of a command word is no interrupt. -/
theorem Silent.gpioWrite {w : BitVec 32} (hw : PdhCore.rstBit w = false) :
    Silent { b with fabric := PdhTop.gpioWrite w b.fabric } := by
  rw [PdhTop.gpioWrite, if_neg (by simp [hw])]
  exact ⟨h.irqR, h.stretch, h.sync₁, h.sync₂, h.count, h.raised⟩

/-- Acknowledging keeps a silent board silent. -/
theorem Silent.write : Silent { b with uio := b.uio.write } := by
  rw [Uio.write, if_neg (by simp [h.raised])]
  exact ⟨h.irqR, h.stretch, h.sync₁, h.sync₂, h.count, h.raised⟩

/-- So does reading. -/
theorem Silent.read : Silent { b with uio := b.uio.read } :=
  ⟨h.irqR, h.stretch, h.sync₁, h.sync₂, rfl, h.raised⟩

/-- An edge that takes the line on requests no interrupt. -/
theorem Silent.clock {s : PdhTop.State P} (hirq : s.uPdhCore.irqR = false)
    (hstretch : s.irqStretchR ≠ 0#5 → b.fabric.irqStretchR ≠ 0#5)
    (hsync : s.irqSyncR = nextIrqSyncR b.fabric ∨ s.irqSyncR = b.fabric.irqSyncR) :
    Silent { fabric := s, uio := nextUio b.fabric s b.uio } := by
  have hbits : s.irqSyncR.getLsbD 2 = true → b.fabric.irqSyncR.getLsbD 2 = true := by
    intro hhigh
    rcases hsync with hnext | hsame
    · rw [hnext, getLsbD_nextIrqSyncR_two] at hhigh
      exact h.sync₂ hhigh
    · rwa [hsame] at hhigh
  have huio : nextUio b.fabric s b.uio = b.uio := by
    rw [nextUio, if_neg]
    intro hedge
    obtain ⟨hhigh, hlow⟩ := Bool.and_eq_true_iff.mp hedge
    rw [irqF2p, hbits hhigh] at hlow
    cases hlow
  rw [huio]
  rcases hsync with hnext | hsame
  · refine ⟨hirq, fun hs => ?_, fun hs => ?_, fun hs => ?_, h.count, h.raised⟩
    · rw [hnext, getLsbD_nextIrqSyncR_zero]
      exact bne_iff_ne.mpr (hstretch hs)
    · rw [hnext, getLsbD_nextIrqSyncR_zero] at hs
      rw [hnext, getLsbD_nextIrqSyncR_one]
      exact h.stretch (bne_iff_ne.mp hs)
    · rw [hnext, getLsbD_nextIrqSyncR_one] at hs
      rw [hnext, getLsbD_nextIrqSyncR_two]
      exact h.sync₁ hs
  · refine ⟨hirq, fun hs => ?_, ?_, ?_, h.count, h.raised⟩
    · rw [hsame]
      exact h.stretch (hstretch hs)
    · rw [hsame]
      exact h.sync₁
    · rw [hsame]
      exact h.sync₂

include hrst

omit h in
/-- The interrupt register after an edge of the core clock. -/
theorem irqR_pdhEdge (rom : Nco.Rom) (adc : Adc) :
    (pdhEdge rom adc b.fabric).uPdhCore.irqR = raises b.fabric := by
  simp [pdhEdge, PdhCore.step, PdhCore.posedge, PdhCore.negedge, PdhCore.Input.rstI, coreInput,
    hrst, raises]

/-- A move that raises no interrupt keeps the board silent. -/
theorem Silent.step (rom : Nco.Rom) {m : Move} (hm : m.NoReset)
    (hraise : raises b.fabric = false) : Silent (Board.step rom m b) := by
  have hirq : ∀ adc, (pdhEdge rom adc b.fabric).uPdhCore.irqR = false :=
    fun adc => (irqR_pdhEdge hrst rom adc).trans hraise
  have hstretch := nextIrqStretchR_ne_zero h.irqR
  cases m with
  | clock e =>
      rcases e with ⟨e, he⟩
      cases e with
      | gpioWrite w => cases he
      | pdhClk adc => exact h.clock (hirq adc) hstretch (.inr rfl)
      | fclk0 slave => exact h.clock h.irqR id (.inl rfl)
      | bothClk adc slave => exact h.clock (hirq adc) hstretch (.inl rfl)
  | call c r =>
      cases c with
      | pdhSendCmd raw => exact h.gpioWrite (hm raw (by simp [Move.sent, Move.calls, Call.sent]))
      | uioAckIrq => exact h.write
      | uioWaitIrq => exact h.read
      | _ => exact h

end Step

/-! ## Runs -/

section Runs

variable (rom : Nco.Rom) (b₀ : Board P) (ms : ℕ → Move)

/-- The events of the fabric in a run of the board. -/
def events (n : ℕ) : Event :=
  (ms n).event (run (Board.step rom) b₀ ms n).fabric

variable {rom b₀ ms} (hrst : PdhCore.rstBit b₀.fabric.axiFromPs = false)
  (hms : ∀ n, (ms n).NoReset)

include hrst hms

/-- The fabric of a run of the board makes a run of its own. -/
theorem fabric_run (n : ℕ) :
    (run (Board.step rom) b₀ ms n).fabric =
        run (PdhTop.step rom) b₀.fabric (events rom b₀ ms) n ∧
      PdhCore.rstBit (run (Board.step rom) b₀ ms n).fabric.axiFromPs = false := by
  induction n with
  | zero => exact ⟨rfl, hrst⟩
  | succ n ih =>
      obtain ⟨hrun, hbit⟩ := ih
      have hstep := fabric_step (m := ms n) hbit rom
      have hevent := noReset_event (m := ms n) hbit (hms n)
      rw [run_succ, run_succ, hstep, ← hrun]
      exact ⟨rfl, rstBit_step rom hevent hbit⟩

/-- None of the events of a run resets. -/
theorem noReset_events (n : ℕ) : (events rom b₀ ms n).NoReset :=
  noReset_event (fabric_run hrst hms n).2 (hms n)

/-- Before a silent board becomes readable, the fabric raises its interrupt. -/
theorem exists_raise (h : Silent b₀) {n : ℕ}
    (hreadable : (run (Board.step rom) b₀ ms n).uio.readable = true) :
    ∃ i < n, raises (run (Board.step rom) b₀ ms i).fabric = true := by
  by_contra hnone
  push Not at hnone
  have hsilent : ∀ k ≤ n, Silent (run (Board.step rom) b₀ ms k) := by
    intro k hk
    induction k with
    | zero => exact h
    | succ k ih =>
        have hraise := eq_false_of_ne_true (hnone k (by omega))
        exact (ih (by omega)).step (fabric_run hrst hms k).2 rom (hms k) hraise
  rw [(hsilent n le_rfl).not_readable] at hreadable
  cases hreadable

end Runs

end System
end PoundDreverHall
