import PoundDreverHall.Clocked.Crossing
import PoundDreverHall.System.FrameCall

/-!
# System - the interrupt line

The core raises its interrupt for one period of {lit}`pdh_clk`, and the processing system counts the
rising edges of a line that runs on {lit}`fclk0`.  In between are the stretcher, which holds a level
for 31 periods, and the synchroniser.

Main results:

- Definition {lit}`interruptLine`: the stretcher and the synchroniser in a run of the design, as a
  crossing.
- Theorem {lit}`interrupt_edges`: no interrupt that finds the line at rest is lost or counted twice,
  and interrupts that are 62 periods apart all find it at rest.
-/

namespace PoundDreverHall
namespace System

open Clocked PdhTop

variable {P : Params} (rom : Nco.Rom) (s : PdhTop.State P) (es : ℕ → Event)

/-! ## The crossing -/

/-- The registers of the synchroniser, the first one first. -/
def syncChain (s : PdhTop.State P) : List Bool :=
  [s.irqSyncR.getLsbD 0, s.irqSyncR.getLsbD 1, s.irqSyncR.getLsbD 2]

/-- An edge of {lit}`fclk0` moves the level on by one register. -/
theorem syncChain_fclkEdge (slave : Slave) (s : PdhTop.State P) :
    syncChain (fclkEdge slave s) =
      decide (s.irqStretchR.toNat ≠ 0) :: (syncChain s).dropLast := by
  have hlevel : (s.irqStretchR != 0#5) = decide (s.irqStretchR.toNat ≠ 0) := by
    rw [Bool.eq_iff_iff, bne_iff_ne, decide_eq_true_eq]
    exact not_congr BitVec.toNat_eq
  simp only [syncChain, fclkEdge, getLsbD_nextIrqSyncR_zero, getLsbD_nextIrqSyncR_one,
    getLsbD_nextIrqSyncR_two, hlevel, List.dropLast_cons_cons, List.dropLast_singleton]

/-- The stretch counts down from 31. -/
theorem toNat_nextIrqStretchR (s : PdhTop.State P) :
    (nextIrqStretchR s).toNat =
      if PdhCore.irqO s.uPdhCore then 31 else s.irqStretchR.toNat - 1 := by
  rw [nextIrqStretchR]
  split_ifs with hirq hstretch
  · rfl
  · have hpos : s.irqStretchR.toNat ≠ 0 := fun h => hstretch (BitVec.eq_of_toNat_eq h)
    have hlt := s.irqStretchR.isLt
    rw [BitVec.toNat_sub]
    change (2 ^ 5 - 1 + s.irqStretchR.toNat) % 2 ^ 5 = _
    omega
  · rw [not_not.mp hstretch]
    rfl

theorem gpioWrite_line (w : BitVec 32) (s : PdhTop.State P) :
    (gpioWrite w s).irqStretchR = s.irqStretchR ∧ (gpioWrite w s).irqSyncR = s.irqSyncR := by
  unfold gpioWrite
  split_ifs
  · exact ⟨rfl, rfl⟩
  · exact ⟨rfl, rfl⟩

/-- The stretcher and the synchroniser in a run of the design. -/
def interruptLine : Crossing 31 where
  near := fun n => (es n).isPdhEdge
  far := fun n => (es n).isFclkEdge
  pulse := fun n => PdhCore.irqO (run (PdhTop.step rom) s es n).uPdhCore
  stretch := fun n => (run (PdhTop.step rom) s es n).irqStretchR.toNat
  chain := fun n => syncChain (run (PdhTop.step rom) s es n)
  stretch_succ := by
    intro n
    rw [run_succ]
    cases es n with
    | gpioWrite w => exact congrArg BitVec.toNat (gpioWrite_line w _).1
    | pdhClk adc => exact toNat_nextIrqStretchR _
    | fclk0 slave => rfl
    | bothClk adc slave => exact toNat_nextIrqStretchR _
  chain_succ := by
    intro n
    rw [run_succ]
    cases es n with
    | gpioWrite w =>
        have hsync := (gpioWrite_line w (run (PdhTop.step rom) s es n)).2
        simp only [PdhTop.step, syncChain, hsync, Event.isFclkEdge, Bool.false_eq_true, if_false]
    | pdhClk adc => rfl
    | fclk0 slave => exact syncChain_fclkEdge slave _
    | bothClk adc slave => exact syncChain_fclkEdge slave _
  chain_ne_nil := List.cons_ne_nil _ _

/-! ## Edges -/

/-- The interrupts that the core raises in the first {lit}`n` steps. -/
def interrupts (n : ℕ) : ℕ :=
  Nat.count (fun k => ((es k).isPdhEdge &&
    PdhCore.irqO (run (PdhTop.step rom) s es k).uPdhCore) = true) n

/-- The rising edges of the line in the first {lit}`n` steps. -/
def lineEdges (n : ℕ) : ℕ :=
  Nat.count (fun k => (irqF2p (run (PdhTop.step rom) s es (k + 1)) &&
    !irqF2p (run (PdhTop.step rom) s es k)) = true) n

/-- The interrupts that find the line at rest in the first {lit}`n` steps. -/
def freshInterrupts (n : ℕ) : ℕ :=
  Nat.count (fun k => (interruptLine rom s es).fresh k = true) n

/-- The edges of {lit}`fclk0` in the first {lit}`n` steps. -/
def fclkEdges (n : ℕ) : ℕ :=
  Nat.count (fun k => (es k).isFclkEdge = true) n

/-- Fewer than 31 edges of {lit}`pdh_clk` follow one another without one of {lit}`fclk0`. -/
def FclkKeepsUp (es : ℕ → Event) : Prop :=
  ∀ n, waited (fun n => (es n).isPdhEdge) (fun n => (es n).isFclkEdge) n < 31

/-- From a line at rest: three edges of {lit}`fclk0` after some steps, every interrupt of these
steps that found the line at rest has become one rising edge of the line, and there were no others.
If there are at least 62 edges of {lit}`pdh_clk` between interrupts, all of them find it at rest. -/
theorem interrupt_edges (hkeeps : FclkKeepsUp es) (hstretch : s.irqStretchR = 0#5)
    (hsync : s.irqSyncR = 0#3) {m n : ℕ} (hmn : m ≤ n)
    (hedges : fclkEdges es m + 3 ≤ fclkEdges es n) :
    freshInterrupts rom s es m ≤ lineEdges rom s es n ∧
      lineEdges rom s es n ≤ freshInterrupts rom s es n ∧
      ((∀ k, (es k).isPdhEdge = true →
          PdhCore.irqO (run (PdhTop.step rom) s es k).uPdhCore = true →
            62 ≤ (interruptLine rom s es).sincePulse k) →
        ∀ k, freshInterrupts rom s es k = interrupts rom s es k) := by
  have hzero : (interruptLine rom s es).stretch 0 = 0 := by
    change s.irqStretchR.toNat = 0
    rw [hstretch]
    rfl
  have hchain : (interruptLine rom s es).chain 0 = [false, false, false] := by
    change syncChain s = _
    rw [syncChain, hsync]
    rfl
  have hnone : inTransit ((interruptLine rom s es).line 0) = 0 := by
    rw [Crossing.line, hchain, Crossing.level, hzero]
    rfl
  have hline : (interruptLine rom s es).KeepsUp := hkeeps
  have hlasts := Crossing.Lasts.of_rest hzero
  have hconserved := Crossing.conserved hline hlasts n
  have hdelivered := Crossing.delivered hline hlasts hmn (by rw [hchain]; exact hedges)
  rw [hnone, Nat.zero_add] at hconserved hdelivered
  refine ⟨hdelivered, ?_, fun hapart k => ?_⟩
  · exact (Nat.le_add_right _ _).trans hconserved.le
  · have hfresh := Crossing.fresh_of_apart hline hzero (by rw [hchain]; rfl) hapart
    simp only [freshInterrupts, interrupts, hfresh]
    rfl

/-! ### One interrupt -/

/-- A core that raises its interrupt. -/
def raisingState : PdhTop.State {} :=
  let s := releasedState {} fun _ => 0#16
  { s with uPdhCore := { s.uPdhCore with irqR := true } }

/-- The interrupt has become an edge of the line after four edges of both clocks. -/
theorem interrupt_edges_raising :
    1 ≤ lineEdges (fun _ => 0#16) raisingState (fun _ => .bothClk quietAdc readySlave) 4 := by
  have hkeeps : FclkKeepsUp fun _ => .bothClk quietAdc readySlave := by
    rintro (_ | n)
    · exact Nat.zero_lt_succ 30
    · exact Nat.zero_lt_succ 30
  have hfresh : freshInterrupts (fun _ => 0#16) raisingState
      (fun _ => .bothClk quietAdc readySlave) 1 = 1 := by
    decide +kernel
  have hedges := interrupt_edges (fun _ => 0#16) raisingState _ hkeeps (by decide +kernel)
    (by decide +kernel) (m := 1) (n := 4) (by omega) (by decide)
  rw [← hfresh]
  exact hedges.1

end System
end PoundDreverHall
