import PoundDreverHall.Clocked.Run
import PoundDreverHall.Rtl.PdhTop
import PoundDreverHall.Server.Hardware

/-!
# System - server, interrupt and fabric

The server reaches the fabric through the GPIO words and waits for it through a UIO
device.  A board has the fabric and that device.  It moves with the edges of the two
clocks and with the calls of the server, in any order; a call takes its place where
it returns.

Main results:

- Theorem {lit}`fabric_step`: a move is an event of `pdh_top` for the fabric.
-/

namespace PoundDreverHall
namespace System

open PdhTop Server

/-! ## The UIO device -/

/-- The device of an interrupt.  An interrupt that is delivered masks the next one. -/
structure Uio where
  count : ℕ
  lastRead : ℕ
  enabled : Bool
  raised : Bool
deriving DecidableEq, Repr

namespace Uio

/-- The device of a server that has just started. -/
def opened : Uio where
  count := 0
  lastRead := 0
  enabled := true
  raised := false

/-- `select` reports the device readable. -/
def readable (u : Uio) : Bool := u.count != u.lastRead

/-- An interrupt is counted, or kept until it is enabled. -/
def interrupt (u : Uio) : Uio :=
  if u.enabled then { u with count := u.count + 1, enabled := false }
  else { u with raised := true }

/-- A write enables the interrupt, which delivers one that was kept. -/
def write (u : Uio) : Uio :=
  if u.raised then { u with count := u.count + 1, enabled := false, raised := false }
  else { u with enabled := true }

/-- A read returns the count. -/
def read (u : Uio) : Uio := { u with lastRead := u.count }

end Uio

/-! ## Moves -/

/-- The rising edges of the clocks among the events of `pdh_top`. -/
abbrev ClockEdge := { e : Event // (e.isPdhEdge || e.isFclkEdge) = true }

/-- What can happen next: an edge of one clock or of both, or a call of the server with
its response. -/
inductive Move where
  | clock (e : ClockEdge)
  | call (c : Call) (r : c.Response)

/-- The call of a move. -/
def Move.calls : Move → List ((c : Call) × c.Response)
  | .clock _ => []
  | .call c r => [⟨c, r⟩]

/-- The fabric and the device of its interrupt. -/
structure Board (P : Params) where
  fabric : PdhTop.State P
  uio : Uio

variable {P : Params}

/-- The interrupt is requested on the rising edge of its line. -/
def nextUio (before after : PdhTop.State P) (u : Uio) : Uio :=
  if irqF2p after && !irqF2p before then u.interrupt else u

/-- One move. -/
def Board.step (rom : Nco.Rom) (m : Move) (b : Board P) : Board P :=
  match m with
  | .clock e =>
      { fabric := PdhTop.step rom e.1 b.fabric
        uio := nextUio b.fabric (PdhTop.step rom e.1 b.fabric) b.uio }
  | .call (.pdhSendCmd raw) _ => { b with fabric := gpioWrite raw b.fabric }
  | .call .uioAckIrq _ => { b with uio := b.uio.write }
  | .call .uioWaitIrq _ => { b with uio := b.uio.read }
  | .call _ _ => b

/-- The responses that a call can get.  {lit}`select` may return without a readable
device at any time, and the read of the device blocks until there is a new count. -/
def Board.Answers (b : Board P) : (c : Call) → c.Response → Prop
  | .pdhGetCallback, cb => cb = PdhCore.axiToPsO b.fabric.uPdhCore
  | .select _, sel => (0 : ℤ) < sel ↔ b.uio.readable = true
  | .uioWaitIrq, _ => b.uio.readable = true
  | _, _ => True

/-- The board can make the move. -/
def Board.Accepts (b : Board P) : Move → Prop
  | .clock _ => True
  | .call c r => b.Answers c r

instance (b : Board P) (m : Move) : Decidable (b.Accepts m) :=
  match m with
  | .clock _ => isTrue trivial
  | .call .pdhGetCallback (cb : BitVec 32) => inferInstanceAs (Decidable (cb = _))
  | .call (.select _) sel => inferInstanceAs (Decidable ((0 : ℤ) < sel ↔ _))
  | .call .uioWaitIrq _ => inferInstanceAs (Decidable (_ = true))
  | .call (.pdhSendCmd _) _ => isTrue trivial
  | .call .uioAckIrq _ => isTrue trivial
  | .call (.dmaGetFrame _) _ => isTrue trivial
  | .call (.usleep _) _ => isTrue trivial
  | .call (.fopen _) _ => isTrue trivial
  | .call (.fprintf _) _ => isTrue trivial
  | .call (.fprintfFloats _) _ => isTrue trivial
  | .call (.fclose _) _ => isTrue trivial

/-! ## The fabric -/

/-- The words that a move sends. -/
def Move.sent (m : Move) : List (BitVec 32) := m.calls.flatMap fun e => e.1.sent

/-- What a move is for the fabric.  A call that sends nothing leaves it alone, as if the
word on the bus were written again. -/
def Move.event (s : PdhTop.State P) : Move → Event
  | .clock e => e.1
  | .call (.pdhSendCmd raw) _ => .gpioWrite raw
  | .call _ _ => .gpioWrite s.axiFromPs

/-- The move writes no reset bit. -/
def Move.NoReset (m : Move) : Prop :=
  ∀ w ∈ m.sent, PdhCore.rstBit w = false

section Step

variable {b : Board P} {m : Move} (hrst : PdhCore.rstBit b.fabric.axiFromPs = false)

include hrst

theorem gpioWrite_same : gpioWrite b.fabric.axiFromPs b.fabric = b.fabric := by
  rw [gpioWrite, if_neg (by simp [hrst])]

/-- One move of the board is one event of the fabric. -/
theorem fabric_step (rom : Nco.Rom) :
    (Board.step rom m b).fabric = PdhTop.step rom (m.event b.fabric) b.fabric := by
  have hsame := gpioWrite_same hrst
  cases m with
  | clock e => rfl
  | call c r => cases c <;> first | rfl | exact hsame.symm

theorem noReset_event (hm : m.NoReset) : (m.event b.fabric).NoReset := by
  cases m with
  | clock e =>
      rcases e with ⟨e, he⟩
      cases e with
      | gpioWrite w => cases he
      | pdhClk adc => trivial
      | fclk0 slave => trivial
      | bothClk adc slave => trivial
  | call c r =>
      cases c with
      | pdhSendCmd raw => exact hm raw (by simp [Move.sent, Move.calls, Call.sent])
      | _ => exact hrst

end Step

end System
end PoundDreverHall
