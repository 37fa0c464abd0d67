import PoundDreverHall.Frame.Completion
import PoundDreverHall.Frame.OwnFrame
import PoundDreverHall.Requests.BoardRefinement

/-!
# System - an order that is taken

A word passes the synchroniser in three edges of {lit}`pdh_clk`, is latched on the fourth and
executed on the fifth.  When every word of an order stays on the bus for five edges, the core
misses none of them: {lit}`CMD_IDLE` arms the orchestrator, and {lit}`CMD_GET_FRAME` starts the
capture.

Main results:

- Theorem {lit}`Unhurried.latch`: the registers of the synchroniser at any time.
- Theorem {lit}`Unhurried.step_awaiting`: one event before the capture.
- Theorem {lit}`Unhurried.exists_taken`: the capture starts on the fifth edge of the last word.
-/

namespace PoundDreverHall
namespace PdhTop

open Clocked Requests

/-! ## Words that stay on the bus -/

/-- The edges of {lit}`pdh_clk` since the last word, of which {lit}`a n` have been written before
event {lit}`n`. -/
def shownFor (ins : ℕ → Event) (a : ℕ → ℕ) : ℕ → ℕ
  | 0 => 0
  | n + 1 =>
      if a (n + 1) = a n then
        if (ins n).isPdhEdge then shownFor ins a n + 1 else shownFor ins a n
      else 0

/-- The words are written one at a time, each after five edges of the one before, and with the
strobes of an order. -/
structure Unhurried (ins : ℕ → Event) (word : ℕ → BitVec 32) (a : ℕ → ℕ) : Prop where
  zero : a 0 = 0
  succ : ∀ n, a (n + 1) = a n ∨ a (n + 1) = a n + 1 ∧ (ins n).isPdhEdge = false ∧
    (0 < a n → 5 ≤ shownFor ins a n)
  high₂ : PdhCore.strobeBit (word 2) = true
  high₄ : PdhCore.strobeBit (word 4) = true

/-- What is latched when word number {lit}`b` has been on the bus for long enough. -/
def latchedUpTo (word : ℕ → BitVec 32) (r₀ : BitVec 32) : ℕ → BitVec 32
  | 0 => r₀
  | b + 1 =>
      if PdhCore.strobeBit (word (b + 1)) && !PdhCore.strobeBit (word b) then word (b + 1)
      else latchedUpTo word r₀ b

/-- A word that stays changes nothing more. -/
theorem latchAfter_restLatch_self (w latched : BitVec 32) (n : ℕ) :
    latchAfter w n (restLatch w latched) = restLatch w latched :=
  Function.iterate_fixed (step_restLatch w latched) n

namespace Unhurried

variable {P : Params} {rom : Nco.Rom} {s₀ : State P} {ins : ℕ → Event} {word : ℕ → BitVec 32}
  {a : ℕ → ℕ} (h : OrderRun rom s₀ ins word a) (hu : Unhurried ins word a)

section Words

include h hu

omit hu in
theorem latchedUpTo_one (r₀ : BitVec 32) : latchedUpTo word r₀ 1 = r₀ := by
  simp [latchedUpTo, h.words.low₁]

theorem latchedUpTo_two (r₀ : BitVec 32) : latchedUpTo word r₀ 2 = word 2 := by
  simp [latchedUpTo, h.words.low₁, hu.high₂]

theorem latchedUpTo_three (r₀ : BitVec 32) : latchedUpTo word r₀ 3 = word 2 := by
  rw [latchedUpTo, latchedUpTo_two h hu]
  simp [h.words.low₃]

theorem latchedUpTo_four (r₀ : BitVec 32) : latchedUpTo word r₀ 4 = word 4 := by
  simp [latchedUpTo, h.words.low₃, hu.high₄]

/-! ## The synchroniser -/

/-- Each word goes through the registers of the one before. -/
theorem latch (n : ℕ) :
    (run (step rom) s₀ ins n).uPdhCore.latch =
      latchAfter (word (a n)) (shownFor ins a n)
        (restLatch (word (a n - 1))
          (latchedUpTo word s₀.uPdhCore.latch.axiFromPsR (a n - 1))) := by
  induction n with
  | zero =>
      have hbus : word 0 = (control s₀).axiFromPs := by
        rw [← hu.zero]
        exact (h.bus 0).symm
      have h1 := h.settled.axi1ffR
      have h2 := h.settled.axi2ffR
      have h3 := h.settled.axi3ffR
      have h4 := h.settled.prevD
      rw [hu.zero]
      cases hlatch : s₀.uPdhCore.latch with
      | mk r1 r2 r3 detector latched =>
          cases detector
          simp only [control, hlatch] at h1 h2 h3 h4 hbus
          simp [run_zero, latchAfter, shownFor, restLatch, latchedUpTo, hlatch, h1, h2, h3, h4,
            hbus]
  | succ n ih =>
      have hbit := rstBit_run rom h.rstBit h.noReset n
      rcases hu.succ n with hsame | ⟨hnext, hedge, hlong⟩
      · rw [hsame, run_succ]
        cases he : (ins n).isPdhEdge with
        | false =>
            rw [uPdhCore_step_of_not_pdhEdge rom (h.noReset n) he, ih, shownFor, if_pos hsame, he]
            rfl
        | true =>
            have hsync : (run (step rom) s₀ ins n).uPdhCore.rst.rstSyncR = false := h.rstSyncR n
            rcases control_step_of_pdhEdge rom hbit he with ⟨last, -, hlatch⟩
            have hstep : (step rom (ins n) (run (step rom) s₀ ins n)).uPdhCore.latch =
                PdhCore.Latch.step false (word (a n)) (run (step rom) s₀ ins n).uPdhCore.latch := by
              rw [← h.bus n, ← hsync]
              exact hlatch
            rw [hstep, ih, shownFor, if_pos hsame, he, if_pos rfl, latchAfter, latchAfter,
              Function.iterate_succ_apply']
      · rw [run_succ, uPdhCore_step_of_not_pdhEdge rom (h.noReset n) hedge, ih, shownFor,
          if_neg (by omega), hnext, Nat.add_sub_cancel]
        cases hb : a n with
        | zero => exact latchAfter_restLatch_self _ _ _
        | succ b =>
            rw [hb] at hlong
            rw [latchAfter_of_le (by omega), Nat.add_sub_cancel]
            rfl

/-- For three edges after a word was sent, the words before it decide what is latched. -/
theorem axiFromPsR_of_le {n : ℕ} (hn : shownFor ins a n ≤ 3) :
    (run (step rom) s₀ ins n).uPdhCore.latch.axiFromPsR =
      latchedUpTo word s₀.uPdhCore.latch.axiFromPsR (a n - 1) := by
  rw [latch h hu n]
  exact axiFromPsR_latchAfter hn

/-- From the fourth edge on the word has its say. -/
theorem axiFromPsR_of_ge {n : ℕ} (hn : 4 ≤ shownFor ins a n) :
    (run (step rom) s₀ ins n).uPdhCore.latch.axiFromPsR =
      latchedUpTo word s₀.uPdhCore.latch.axiFromPsR (a n) := by
  rw [latch h hu n]
  cases hb : a n with
  | zero =>
      rw [Nat.zero_sub, latchAfter_restLatch_self]
      rfl
  | succ b =>
      rw [latchAfter_of_le hn, Nat.add_sub_cancel]
      rfl

end Words

/-! ## Commands -/

/-- Nothing of the order has been latched. -/
def Early (ins : ℕ → Event) (a : ℕ → ℕ) (n : ℕ) : Prop :=
  a n ≤ 1 ∨ a n = 2 ∧ shownFor ins a n ≤ 3

/-- {lit}`CMD_IDLE` has been executed. -/
def Idled (ins : ℕ → Event) (a : ℕ → ℕ) (n : ℕ) : Prop :=
  a n = 2 ∧ 5 ≤ shownFor ins a n ∨ 3 ≤ a n

/-- {lit}`CMD_GET_FRAME` has been executed. -/
def Taken (ins : ℕ → Event) (a : ℕ → ℕ) (n : ℕ) : Prop :=
  a n = 4 ∧ 5 ≤ shownFor ins a n

section Commands

include h hu

/-- The command before the call stands until a word of the call is latched. -/
theorem cmd_of_early {n : ℕ} (hn : Early ins a n) :
    (control (run (step rom) s₀ ins n)).cmd = (control s₀).cmd := by
  have hlatched : (run (step rom) s₀ ins n).uPdhCore.latch.axiFromPsR =
      s₀.uPdhCore.latch.axiFromPsR := by
    by_cases hle : shownFor ins a n ≤ 3
    · rw [axiFromPsR_of_le h hu hle]
      rcases (by unfold Early at hn; omega : a n - 1 = 0 ∨ a n - 1 = 1) with hb | hb
      · rw [hb]
        rfl
      · rw [hb, latchedUpTo_one h]
    · rw [axiFromPsR_of_ge h hu (by omega)]
      rcases (by unfold Early at hn; omega : a n = 0 ∨ a n = 1) with hb | hb
      · rw [hb]
        rfl
      · rw [hb, latchedUpTo_one h]
  rw [Control.cmd, Control.cmd]
  exact congrArg PdhCore.cmdW hlatched

/-- In between the command is {lit}`CMD_IDLE`. -/
theorem cmd_of_idle {n : ℕ} (hearly : ¬Early ins a n) (hn : a n = 4 → shownFor ins a n ≤ 3) :
    (control (run (step rom) s₀ ins n)).cmd = .idle := by
  have hle := h.le n
  have hlatched : (run (step rom) s₀ ins n).uPdhCore.latch.axiFromPsR = word 2 := by
    by_cases hshown : shownFor ins a n ≤ 3
    · rw [axiFromPsR_of_le h hu hshown]
      rcases (by unfold Early at hearly; omega : a n - 1 = 2 ∨ a n - 1 = 3) with hb | hb
      · rw [hb, latchedUpTo_two h hu]
      · rw [hb, latchedUpTo_three h hu]
    · rw [axiFromPsR_of_ge h hu (by omega)]
      rcases (by unfold Early at hearly; omega : a n = 2 ∨ a n = 3) with hb | hb
      · rw [hb, latchedUpTo_two h hu]
      · rw [hb, latchedUpTo_three h hu]
  have hcmd : (control (run (step rom) s₀ ins n)).cmd = PdhCore.cmdW (word 2) :=
    congrArg PdhCore.cmdW hlatched
  rw [hcmd, h.words.idle]

/-- The order is latched four edges after it was sent. -/
theorem axiFromPsR_of_ordered {n : ℕ} (ha : a n = 4) (hn : 4 ≤ shownFor ins a n) :
    (run (step rom) s₀ ins n).uPdhCore.latch.axiFromPsR = word 4 := by
  rw [axiFromPsR_of_ge h hu hn, ha, latchedUpTo_four h hu]

/-- And its command is executed. -/
theorem cmd_of_ordered {n : ℕ} (ha : a n = 4) (hn : 4 ≤ shownFor ins a n) :
    (control (run (step rom) s₀ ins n)).cmd = .getFrame := by
  have hcmd : (control (run (step rom) s₀ ins n)).cmd = PdhCore.cmdW (word 4) :=
    congrArg PdhCore.cmdW (axiFromPsR_of_ordered h hu ha hn)
  rw [hcmd, h.words.getFrame]

end Commands

/-! ## The orchestrator -/

/-- The orchestrator waits for the order: it is armed, or stale before {lit}`CMD_IDLE`. -/
def Awaiting {P : Params} (ins : ℕ → Event) (a : ℕ → ℕ) (s₀ s : State P) (n : ℕ) : Prop :=
  (control s).At .armed ∧ (Early ins a n → (control s₀).cmd ≠ .getFrame) ∧
      (Idled ins a n → (control s).orch.bramReadyR = true) ∧ ¬Taken ins a n ∨
    (control s).At .stale ∧ ¬Idled ins a n

/-- An orchestrator that waits has not taken the order. -/
theorem Awaiting.not_taken {P : Params} {s₀ s : State P} {n : ℕ}
    (hn : Awaiting ins a s₀ s n) : ¬Taken ins a n := by
  rcases hn with ⟨-, -, -, htaken⟩ | ⟨-, hidled⟩
  · exact htaken
  · exact fun htaken => hidled (.inr (by rw [htaken.1]; omega))

/-- Nor does it run a capture. -/
theorem Awaiting.dmaStateR_ne {P : Params} {s₀ s : State P} {n : ℕ}
    (hn : Awaiting ins a s₀ s n) : (control s).orch.dmaStateR ≠ .runBram := by
  rcases hn with ⟨hat, -⟩ | ⟨hat, -⟩
  · rw [hat.capture.1]
    decide
  · rw [hat.capture.1]
    decide

section Step

include h hu

/-- It waits at the beginning of the call. -/
theorem awaiting_zero : Awaiting ins a s₀ s₀ 0 := by
  have hidled : ¬Idled ins a 0 := by
    unfold Idled
    rw [hu.zero]
    omega
  rcases h.settled.exists_at with ⟨p, ⟨rfl, hcmd⟩ | rfl, hat⟩
  · refine .inl ⟨hat, fun _ => hcmd, fun hn => absurd hn hidled, fun htaken => ?_⟩
    exact hidled (.inr (by rw [htaken.1]; omega))
  · exact .inr ⟨hat, hidled⟩

/-- Between edges of {lit}`pdh_clk` the orchestrator goes on waiting. -/
theorem awaiting_of_not_pdhEdge {n : ℕ} (he : (ins n).isPdhEdge = false)
    (hn : Awaiting ins a s₀ (run (step rom) s₀ ins n) n) :
    Awaiting ins a s₀ (run (step rom) s₀ ins (n + 1)) (n + 1) := by
  have hshown : shownFor ins a (n + 1) = if a (n + 1) = a n then shownFor ins a n else 0 := by
    rw [shownFor, he]
    rfl
  have hearly : Early ins a (n + 1) → Early ins a n := by
    unfold Early
    rcases hu.succ n with hsame | ⟨hnext, -, -⟩
    · rw [hshown, if_pos hsame]
      omega
    · omega
  have hidled : Idled ins a (n + 1) → Idled ins a n := by
    unfold Idled
    rcases hu.succ n with hsame | ⟨hnext, -, hlong⟩
    · rw [hshown, if_pos hsame]
      omega
    · rw [hshown, if_neg (by omega)]
      omega
  have htaken : Taken ins a (n + 1) → Taken ins a n := by
    unfold Taken
    rcases hu.succ n with hsame | ⟨hnext, -, -⟩
    · rw [hshown, if_pos hsame]
      omega
    · rw [hshown, if_neg (by omega)]
      omega
  have hcore := uPdhCore_step_of_not_pdhEdge (s := run (step rom) s₀ ins n) rom (h.noReset n) he
  have hsame : (control (run (step rom) s₀ ins (n + 1))).orch =
      (control (run (step rom) s₀ ins n)).orch := congrArg PdhCore.State.orch hcore
  have hstep : ∀ {p : Phase}, (control (run (step rom) s₀ ins n)).At p →
      (control (run (step rom) s₀ ins (n + 1))).orch.dmaStateR ≠ p.next.dmaSt →
      (control (run (step rom) s₀ ins (n + 1))).At p := by
    intro p hat hne
    rw [h.control_succ] at hne ⊢
    rcases Control.phase_step hat (ticks rom s₀ ins n) with hstay | ⟨-, hmove⟩
    · exact hstay
    · exact absurd hmove.dmaStateR hne
  rcases hn with ⟨hat, hcmd, hready, hnot⟩ | ⟨hat, hnot⟩
  · refine .inl ⟨hstep hat ?_, fun hn => hcmd (hearly hn), fun hn => ?_,
      fun hn => hnot (htaken hn)⟩
    · rw [hsame, hat.capture.1]
      decide
    · rw [hsame]
      exact hready (hidled hn)
  · refine .inr ⟨hstep hat ?_, fun hn => hnot (hidled hn)⟩
    rw [hsame, hat.capture.1]
    decide

/-- An edge of {lit}`pdh_clk` before the capture. -/
theorem awaiting_of_pdhEdge {n : ℕ} (he : (ins n).isPdhEdge = true)
    (hn : Awaiting ins a s₀ (run (step rom) s₀ ins n) n) :
    Awaiting ins a s₀ (run (step rom) s₀ ins (n + 1)) (n + 1) ∨
      Taken ins a (n + 1) ∧
        (control (run (step rom) s₀ ins (n + 1))).orch.dmaStateR = .runBram := by
  have hsame : a (n + 1) = a n := by
    rcases hu.succ n with hsame | ⟨-, hedge, -⟩
    · exact hsame
    · rw [he] at hedge
      cases hedge
  have hshown : shownFor ins a (n + 1) = shownFor ins a n + 1 := by
    rw [shownFor, if_pos hsame, he]
    rfl
  have hearly : Early ins a (n + 1) → Early ins a n := by
    unfold Early
    omega
  have hbit := rstBit_run rom h.rstBit h.noReset n
  have hsync := h.rstSyncR n
  rcases control_step_of_pdhEdge rom hbit he with ⟨last, horch, -⟩
  rw [← run_succ (step rom) s₀ ins n] at horch
  have hstate : (control (run (step rom) s₀ ins (n + 1))).orch.dmaStateR =
      PdhCore.Orchestrator.nextDmaStateW (control (run (step rom) s₀ ins n)).cmd
        (control (run (step rom) s₀ ins n)).orch := by
    simp [horch, Control.pdhEdge, PdhCore.Orchestrator.step, hsync]
  have hready' : (control (run (step rom) s₀ ins n)).capturing = false →
      (control (run (step rom) s₀ ins (n + 1))).orch.bramReadyR = true := by
    intro hcapturing
    simp [horch, Control.pdhEdge, PdhCore.Orchestrator.step, hsync, hcapturing]
  have hphase := fun {p : Phase} (hat : (control (run (step rom) s₀ ins n)).At p) =>
    Control.phase_step hat (ticks rom s₀ ins n)
  rw [← h.control_succ] at hphase
  rcases hn with ⟨hat, hcmd, hready, -⟩ | ⟨hat, hnot⟩
  · by_cases hordered : a n = 4 ∧ 4 ≤ shownFor ins a n
    · -- the last word is executed
      obtain ⟨ha, hlong⟩ := hordered
      refine .inr ⟨⟨hsame.trans ha, by omega⟩, ?_⟩
      rw [hstate, PdhCore.Orchestrator.nextDmaStateW, hat.capture.1,
        hready (.inr (by omega)), cmd_of_ordered h hu ha hlong]
      rfl
    · have hother : (control (run (step rom) s₀ ins n)).cmd ≠ .getFrame := by
        by_cases hn : Early ins a n
        · rw [cmd_of_early h hu hn]
          exact hcmd hn
        · rw [cmd_of_idle h hu hn (by omega)]
          decide
      rcases hphase hat with hstay | ⟨hleave, -⟩
      · refine .inl (.inl ⟨hstay, fun hn => hcmd (hearly hn),
          fun _ => hready' hat.capture.2.2.2.2, fun htaken => hordered ?_⟩)
        unfold Taken at htaken
        omega
      · exact absurd hleave.2 hother
  · left
    rcases hphase hat with hstay | ⟨hleave, hmove⟩
    · refine .inr ⟨hstay, fun hidled => ?_⟩
      -- on the fifth edge CMD_IDLE would have armed it
      have hfifth : a n = 2 ∧ shownFor ins a n = 4 := by
        unfold Idled at hidled hnot
        omega
      have hidle := cmd_of_idle h hu (n := n) (by unfold Early; omega) (by omega)
      have hst := hstay.capture.1
      rw [hstate, PdhCore.Orchestrator.nextDmaStateW, hat.capture.1, hidle] at hst
      cases hst
    · refine .inl ⟨hmove, fun hn => ?_, fun _ => hready' hat.capture.2.2, fun htaken => hnot ?_⟩
      · rw [← cmd_of_early h hu (hearly hn)]
        exact hleave
      · exact .inr (by rw [← hsame, htaken.1]; omega)

/-- One event before the capture: the orchestrator goes on waiting, or takes the order. -/
theorem step_awaiting {n : ℕ} (hn : Awaiting ins a s₀ (run (step rom) s₀ ins n) n) :
    Awaiting ins a s₀ (run (step rom) s₀ ins (n + 1)) (n + 1) ∨
      Taken ins a (n + 1) ∧
        (control (run (step rom) s₀ ins (n + 1))).orch.dmaStateR = .runBram := by
  cases he : (ins n).isPdhEdge with
  | false => exact .inl (awaiting_of_not_pdhEdge h hu he hn)
  | true => exact awaiting_of_pdhEdge h hu he hn

/-- Until the orchestrator takes the order it goes on waiting. -/
theorem awaiting_or_taken (n : ℕ) :
    Awaiting ins a s₀ (run (step rom) s₀ ins n) n ∨
      ∃ k ≤ n, Taken ins a k ∧
        (control (run (step rom) s₀ ins k)).orch.dmaStateR = .runBram := by
  induction n with
  | zero => exact .inl (awaiting_zero h hu)
  | succ n ih =>
      rcases ih with hn | ⟨k, hk, htaken⟩
      · rcases step_awaiting h hu hn with hnext | htaken
        · exact .inl hnext
        · exact .inr ⟨n + 1, le_rfl, htaken⟩
      · exact .inr ⟨k, Nat.le_succ_of_le hk, htaken⟩

/-- After five edges of the last word the orchestrator has taken the order. -/
theorem exists_taken {n : ℕ} (hn : Taken ins a n) :
    ∃ k ≤ n, (run (step rom) s₀ ins k).uPdhCore.orch.dmaStateR = .runBram := by
  rcases awaiting_or_taken h hu n with hwait | ⟨k, hk, -, hst⟩
  · exact absurd hn hwait.not_taken
  · exact ⟨k, hk, hst⟩

/-- An order that was taken stays taken. -/
theorem taken_mono {k n : ℕ} (hkn : k ≤ n) (hk : Taken ins a k) : Taken ins a n := by
  induction n, hkn using Nat.le_induction with
  | base => exact hk
  | succ n hkn ih =>
      obtain ⟨ha, hlong⟩ := ih
      have hsame : a (n + 1) = a n := by
        have hle := h.le (n + 1)
        rcases hu.succ n with hsame | ⟨hnext, -, -⟩ <;> omega
      refine ⟨hsame.trans ha, ?_⟩
      rw [shownFor, if_pos hsame]
      split_ifs <;> omega

/-- A capture is one of the order. -/
theorem taken_of_runBram {n : ℕ}
    (hst : (run (step rom) s₀ ins n).uPdhCore.orch.dmaStateR = .runBram) : Taken ins a n := by
  rcases awaiting_or_taken h hu n with hwait | ⟨k, hk, htaken, -⟩
  · exact absurd hst hwait.dmaStateR_ne
  · exact taken_mono h hu hk htaken

/-- The decimation is the one of the order. -/
theorem dmaDecimationCodeR_of_taken {n : ℕ} (hn : Taken ins a n) :
    (run (step rom) s₀ ins n).uPdhCore.regs.dmaDecimationCodeR =
      (PdhCore.dataW (word 4)).extractLsb' 0 22 := by
  induction n with
  | zero =>
      rw [Taken, hu.zero] at hn
      omega
  | succ n ih =>
      obtain ⟨ha, hlong⟩ := hn
      have hsame : a (n + 1) = a n := by
        rcases hu.succ n with hsame | ⟨hnext, -, -⟩
        · exact hsame
        · rw [shownFor, if_neg (by omega)] at hlong
          omega
      have ha' : a n = 4 := hsame.symm.trans ha
      rw [shownFor, if_pos hsame] at hlong
      rw [run_succ]
      cases he : (ins n).isPdhEdge with
      | false =>
          rw [he, if_neg (by decide)] at hlong
          rw [uPdhCore_step_of_not_pdhEdge rom (h.noReset n) he]
          exact ih ⟨ha', hlong⟩
      | true =>
          rw [he, if_pos rfl] at hlong
          rw [regs_step rom (rstBit_run rom h.rstBit h.noReset n) (h.rstSyncR n) he,
            axiFromPsR_of_ordered h hu ha' (by omega)]
          simp [PdhCore.Regs.next, h.words.getFrame]

end Step

end Unhurried

end PdhTop
end PoundDreverHall
