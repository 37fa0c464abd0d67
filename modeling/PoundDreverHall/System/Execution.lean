import Mathlib.Data.List.GetD
import PoundDreverHall.Frame.Progress
import PoundDreverHall.Requests.Behaviour
import PoundDreverHall.System.Interrupt

/-!
# System - executions of a routine

From the call of a routine to its return the board makes finitely many moves.  The calls
among them are a trace of the routine; the edges of the clocks fall anywhere in between.

Main results:

- Definition {lit}`Execution`: the moves that the board makes.
- Theorem {lit}`bus_run`: the word on the bus is the last one that was sent.
-/

namespace PoundDreverHall
namespace System

open Clocked Device Device.Program PdhTop Requests Server

/-! ## Executions -/

/-- The moves of a list, then edges of the clock of the core. -/
def moveAt (moves : List Move) (n : ℕ) : Move :=
  moves.getD n (.clock ⟨.pdhClk quietAdc, rfl⟩)

/-- The moves that the board makes from the call of a routine to its return. -/
structure Execution {P : Params} {α : Type} (rom : Nco.Rom) (b₀ : Board P) (moves : List Move)
    (p : Routine α) (a : α) : Prop where
  accepts : ∀ n < moves.length,
    (run (Board.step rom) b₀ (moveAt moves) n).Accepts (moveAt moves n)
  performs : Performs p (moves.flatMap Move.calls) a

theorem moveAt_of_le {moves : List Move} {n : ℕ} (hn : moves.length ≤ n) :
    (moveAt moves n).calls = [] := by
  rw [moveAt, List.getD_eq_default _ _ hn]
  rfl

/-- The calls are those of the list. -/
theorem moveAt_eq_call {moves : List Move} {n : ℕ} {c : Call} {resp : c.Response} :
    moveAt moves n = .call c resp ↔ moves[n]? = some (.call c resp) := by
  rw [moveAt, List.getD_eq_getElem?_getD]
  cases moves[n]? with
  | none => simp
  | some m => simp

/-- The calls of an execution are those of its moves. -/
theorem log_calls (moves : List Move) :
    log (fun n => (moveAt moves n).calls) moves.length = moves.flatMap Move.calls :=
  log_getD Move.calls moves _

/-! ## Words -/

section Words

variable {P : Params} {rom : Nco.Rom} {b₀ : Board P} {ms : ℕ → Move}

/-- The words of an execution are those of its calls. -/
theorem log_sent (ms : ℕ → Move) (n : ℕ) :
    log (fun k => (ms k).sent) n = shown Call.sent (log (fun k => (ms k).calls) n) := by
  simp [log, shown, Move.sent, List.flatMap_assoc]

/-- Only `pdh_send_cmd` sends a word. -/
theorem eq_send_of_mem_sent {m : Move} {w : BitVec 32} (h : w ∈ m.sent) :
    m = .call (.pdhSendCmd w) () := by
  cases m with
  | clock e => cases h
  | call c resp =>
      cases c with
      | pdhSendCmd raw =>
          cases List.mem_singleton.mp h
          rfl
      | _ => cases h

/-- The bus holds the word that was sent last. -/
theorem bus_step {m : Move} (hm : m.NoReset) (b : Board P) :
    (Board.step rom m b).fabric.axiFromPs = m.sent.getLastD b.fabric.axiFromPs := by
  cases m with
  | clock e =>
      rcases e with ⟨e, he⟩
      cases e with
      | gpioWrite w => cases he
      | _ => rfl
  | call c resp =>
      cases c with
      | pdhSendCmd raw =>
          have hraw := hm raw (by simp [Move.sent, Move.calls, Call.sent])
          simp [Board.step, gpioWrite, hraw, Move.sent, Move.calls, Call.sent]
      | _ => rfl

/-- The word on the bus is the last one that was sent. -/
theorem bus_run (hms : ∀ n, (ms n).NoReset) (n : ℕ) :
    (run (Board.step rom) b₀ ms n).fabric.axiFromPs =
      (log (fun k => (ms k).sent) n).getLastD b₀.fabric.axiFromPs := by
  induction n with
  | zero => rfl
  | succ n ih =>
      rw [log_succ, run_succ, bus_step (hms n), ih]
      simp [List.getLastD_eq_getLast?, List.getLast?_append]

end Words

/-- After a beginning of some words, the last one is found by its number. -/
theorem getLastD_eq_getD {α : Type*} {l words : List α} (h : l <+: words) (a d : α) :
    l.getLastD a = (a :: words).getD l.length d := by
  obtain ⟨rest, rfl⟩ := h
  rcases List.eq_nil_or_concat l with rfl | ⟨l, x, rfl⟩
  · rfl
  · simp

/-! ## Moves of a trace -/

/-- The moves that make the calls of a trace. -/
def callMoves (tr : Trace) : List Move :=
  tr.map fun e => .call e.1 e.2

/-- The moves of a trace make its calls. -/
theorem flatMap_callMoves (tr : Trace) : (callMoves tr).flatMap Move.calls = tr := by
  induction tr with
  | nil => rfl
  | cons e tr ih => exact congrArg (e :: ·) ih

theorem moveAt_append {moves : List Move} {n : ℕ} (hn : n < moves.length) (rest : List Move) :
    moveAt (moves ++ rest) n = moveAt moves n :=
  List.getD_append _ _ _ _ hn

/-- After the moves of a list come those of the next list. -/
theorem moveAt_append_right (moves rest : List Move) (k : ℕ) :
    moveAt (moves ++ rest) (moves.length + k) = moveAt rest k := by
  have hright := List.getD_append_right moves rest (.clock ⟨.pdhClk quietAdc, rfl⟩)
    (moves.length + k) (Nat.le_add_right _ k)
  rwa [Nat.add_sub_cancel_left] at hright

/-- Every move of a trace is a call of it. -/
theorem exists_moveAt_callMoves {tr : Trace} {k : ℕ} (hk : k < (callMoves tr).length) :
    ∃ e ∈ tr, moveAt (callMoves tr) k = .call e.1 e.2 := by
  rcases List.mem_map.mp (List.getElem_mem hk) with ⟨e, he, hmove⟩
  exact ⟨e, he, (List.getD_eq_getElem _ _ hk).trans hmove.symm⟩

end System
end PoundDreverHall
