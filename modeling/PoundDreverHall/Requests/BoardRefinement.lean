import PoundDreverHall.Requests.Callback
import PoundDreverHall.Requests.FirInstall

/-!
# Requests - the core behind the register file

The register file behind the bus acts at once.  The core needs clock periods: two to leave a reset,
three until a word has passed the synchroniser, and one each for the latch, the registers and the
callback.  This file shows that with that many clock periods before every access the core does what
the register file does.

Main results:

- Definition {lit}`CaughtUp`: the core has taken in the word on the bus.
- Theorem {lit}`caughtUp_run`: eight clock periods are enough for it.
- Theorem {lit}`slowGpio_refines`: what the core does is what the register file does.
- Theorem {lit}`slowGpio_refines_reset`: the same from reset.
-/

namespace PoundDreverHall
namespace Requests

open Clocked Device Server PdhCore

/-! ## The latch -/

/-- The latch when the bus has shown a word for a while. -/
def restLatch (bus latched : BitVec 32) : Latch where
  axi1ffR := bus
  axi2ffR := bus
  axi3ffR := bus
  uStrobeEdgeDetector := { prevD := strobeBit bus }
  axiFromPsR := latched

/-- The latch after some clock periods with a word on the bus. -/
def latchAfter (w : BitVec 32) (n : ℕ) (l : Latch) : Latch :=
  (Latch.step false w)^[n] l

theorem step_restLatch (w latched : BitVec 32) :
    Latch.step false w (restLatch w latched) = restLatch w latched := by
  simp [Latch.step, restLatch, Latch.nextAxiFromPsW, Latch.strobeEdgeW, PosedgeDetector.q,
    PosedgeDetector.clock]

/-- In the first three clock periods a word passes the synchroniser. -/
theorem axiFromPsR_latchAfter {v w latched : BitVec 32} {n : ℕ} (hn : n ≤ 3) :
    (latchAfter w n (restLatch v latched)).axiFromPsR = latched := by
  have hcases : n = 0 ∨ n = 1 ∨ n = 2 ∨ n = 3 := by omega
  rcases hcases with rfl | rfl | rfl | rfl <;>
    simp [latchAfter, Latch.step, restLatch, Latch.nextAxiFromPsW, Latch.strobeEdgeW,
      PosedgeDetector.q, PosedgeDetector.clock]

/-- In the fourth it is latched if its strobe rises. -/
theorem latchAfter_of_le {v w latched : BitVec 32} {n : ℕ} (hn : 4 ≤ n) :
    latchAfter w n (restLatch v latched) =
      restLatch w (if strobeBit w && !strobeBit v then w else latched) := by
  induction n, hn using Nat.le_induction with
  | base =>
      simp [latchAfter, Latch.step, restLatch, Latch.nextAxiFromPsW, Latch.strobeEdgeW,
        PosedgeDetector.q, PosedgeDetector.clock]
  | succ n hn ih =>
      rw [latchAfter, Function.iterate_succ_apply']
      rw [latchAfter] at ih
      rw [ih, step_restLatch]

/-! ## Catching up -/

namespace Board

theorem send_of_rst {raw : BitVec 32} (hrst : rstBit raw = true) (b : Board) :
    b.send raw = resetBoard := by
  rw [send, if_pos hrst]
  rfl

theorem send_of_clear {raw : BitVec 32} (hrst : rstBit raw = false) {b : Board}
    (hexecuted : exec b.latched b.config = b.config) :
    b.send raw =
      let latched := if strobeBit raw && !strobeBit b.bus then raw else b.latched
      { config := exec latched b.config, latched := latched, bus := raw } := by
  rw [send, if_neg (Bool.eq_false_iff.mp hrst)]
  by_cases hedge : (strobeBit raw && !strobeBit b.bus) = true
  · simp [hedge]
  · simp [hedge, hexecuted]

end Board

/-- Outside reset, the core has latched and executed what the register file has. -/
structure Rests (b : Board) (s : State) : Prop where
  live : Live s
  latch : s.latch = restLatch b.bus b.latched
  config : s.config = b.config
  executed : exec b.latched b.config = b.config

/-- The core is held in reset. -/
structure InReset (s : State) : Prop where
  asserted : Asserted s
  latch : s.latch = .reset
  config : s.config = .reset
  posted : axiToPsO s = 0#32

/-- The core has taken in the word on the bus, and posted its callback. -/
def CaughtUp (b : Board) (w : BitVec 32) (s : State) : Prop :=
  (rstBit w = true ∧ b = resetBoard ∧ InReset s) ∨
    (rstBit w = false ∧ b.bus = w ∧ Rests b s ∧ b.Answers (axiToPsO s))

section Core

variable (rom : Nco.Rom) {b : Board} {s : State} {ins : ℕ → Input} {w : BitVec 32} {n : ℕ}

/-- A word without a reset bit goes through the latch. -/
theorem latch_run (hs : Live s) (hrst : rstBit w = false) (hbus : ∀ k < n, busWords ins k = w) :
    Live (run (step rom) s ins n) ∧
      (run (step rom) s ins n).latch = latchAfter w n s.latch := by
  induction n with
  | zero => exact ⟨hs, rfl⟩
  | succ n ih =>
      rcases ih fun k hk => hbus k (Nat.lt_succ_of_lt hk) with ⟨hlive, hlatch⟩
      have hword : (ins n).axiFromPsI = w := hbus n (Nat.lt_succ_self n)
      have hi : (ins n).rstI = false := by rw [Input.rstI, hword, hrst]
      refine ⟨step_live_live rom hlive hi, ?_⟩
      rw [latchAfter, Function.iterate_succ_apply', ← latchAfter, ← hlatch, run_succ,
        step_live rom hlive hi, hword]
      simp [Latch.step, PosedgeDetector.clock]

/-- The registers execute what is latched. -/
theorem config_succ (hs : Live s) (hrst : rstBit w = false)
    (hbus : ∀ k < n + 1, busWords ins k = w) :
    (run (step rom) s ins (n + 1)).config =
      exec (latchAfter w n s.latch).axiFromPsR (run (step rom) s ins n).config := by
  rcases latch_run rom hs hrst fun k hk => hbus k (Nat.lt_succ_of_lt hk) with ⟨hlive, hlatch⟩
  have hi : (ins n).rstI = false := by
    rw [Input.rstI, show (ins n).axiFromPsI = w from hbus n (Nat.lt_succ_self n), hrst]
  rw [run_succ, step_config rom hlive hi, hlatch]

variable (h : Rests b s) (hrst : rstBit w = false)

include h hrst

/-- Until a word is latched the registers stay as they are. -/
theorem Rests.config_of_le (hn : n ≤ 4) (hbus : ∀ k < n, busWords ins k = w) :
    (run (step rom) s ins n).config = b.config := by
  induction n with
  | zero => exact h.config
  | succ n ih =>
      rw [config_succ rom h.live hrst hbus, h.latch, axiFromPsR_latchAfter (by omega),
        ih (by omega) fun k hk => hbus k (Nat.lt_succ_of_lt hk), h.executed]

/-- One clock period later they have executed it. -/
theorem Rests.config_of_ge (hn : 5 ≤ n) (hbus : ∀ k < n, busWords ins k = w) :
    (run (step rom) s ins n).config = (b.send w).config := by
  rw [Board.send_of_clear hrst h.executed]
  induction n, hn using Nat.le_induction with
  | base =>
      rw [config_succ rom h.live hrst hbus, h.latch, latchAfter_of_le (Nat.le_refl 4),
        h.config_of_le rom hrst (Nat.le_refl 4) fun k hk => hbus k (Nat.lt_succ_of_lt hk)]
      rfl
  | succ n hn ih =>
      rw [config_succ rom h.live hrst hbus, h.latch, latchAfter_of_le (by omega),
        ih fun k hk => hbus k (Nat.lt_succ_of_lt hk)]
      exact exec_exec _ _

/-- Then the core rests on the word. -/
theorem Rests.run (hn : 5 ≤ n) (hbus : ∀ k < n, busWords ins k = w) :
    Rests (b.send w) (Clocked.run (step rom) s ins n) := by
  rcases latch_run rom h.live hrst hbus with ⟨hlive, hlatch⟩
  refine ⟨hlive, ?_, h.config_of_ge rom hrst hn hbus, ?_⟩
  · rw [hlatch, h.latch, latchAfter_of_le (by omega), Board.send_of_clear hrst h.executed]
  · rw [Board.send_of_clear hrst h.executed]
    exact exec_exec _ _

omit hrst in
/-- The callback that is posted next is that of the command. -/
theorem Rests.answers {i : Input} (hi : i.rstI = false) :
    b.Answers (axiToPsO (step rom i s)) := by
  have hconfig : (step rom i s).config = b.config := by
    rw [step_config rom h.live hi, h.latch, h.config]
    exact h.executed
  have hregs : s.regs = b.config.regs := congrArg Config.regs h.config
  have hlatched : s.latch.axiFromPsR = b.latched := by
    rw [h.latch]
    rfl
  refine ⟨(step rom i s).dac, observed i s, congrArg Config.dac1DatR hconfig,
    congrArg Config.dac2DatR hconfig, ?_⟩
  rw [axiToPsO, step_live rom h.live hi, hregs, hlatched]

/-- And one clock period later the callback is there. -/
theorem Rests.caughtUp (hn : 6 ≤ n) (hbus : ∀ k < n, busWords ins k = w) :
    CaughtUp (b.send w) w (Clocked.run (step rom) s ins n) := by
  obtain ⟨m, rfl⟩ := Nat.exists_eq_add_of_le' (show 1 ≤ n by omega)
  have hi : (ins m).rstI = false := by
    rw [Input.rstI, show (ins m).axiFromPsI = w from hbus m (Nat.lt_succ_self m), hrst]
  have hrests := h.run rom hrst (n := m) (by omega) fun k hk => hbus k (Nat.lt_succ_of_lt hk)
  have hbus' : (b.send w).bus = w := by rw [Board.send_of_clear hrst h.executed]
  exact .inr ⟨hrst, hbus', h.run rom hrst (by omega) hbus, hrests.answers rom hi⟩

end Core

/-! ## Reset -/

section Reset

variable (rom : Nco.Rom) {s : State} {i : Input}

theorem inReset_step (s : State) (hi : i.rstI = true) : InReset (step rom i s) := by
  refine ⟨step_rst rom s hi, (resetting_of_rst rom s hi).latch, ?_, ?_⟩
  · simp [State.config, Config.reset, step, posedge, negedge, asyncReset, hi, ResetSync.asserted]
  · simp [axiToPsO, step, posedge, negedge, asyncReset, hi, ResetSync.asserted]

theorem dac_step_draining (h : Draining s) (hi : i.rstI = false) :
    (step rom i s).dac = .reset := by
  simp [step, posedge, negedge, hi, h.rstNe]

/-- Two clock periods without a reset bit lead out of reset. -/
theorem InReset.rests (h : InReset s) {j : Input} (hi : i.rstI = false) (hj : j.rstI = false) :
    Rests resetBoard (step rom j (step rom i s)) := by
  have hdraining := draining_step rom h.asserted hi
  rcases step_draining rom hdraining hj with ⟨hlive, hlatch, hregs⟩
  refine ⟨hlive, hlatch, ?_, by decide⟩
  rw [State.config, hregs, dac_step_draining rom hdraining hj]
  rfl

end Reset

/-! ## From word to word -/

section CaughtUp

variable (rom : Nco.Rom) {b : Board} {s : State} {ins : ℕ → Input} {v w : BitVec 32} {n : ℕ}

/-- A core that had taken in the word before takes in the next one in eight clock periods. -/
theorem caughtUp_run (h : CaughtUp b v s) (hn : 8 ≤ n) (hbus : ∀ k < n, busWords ins k = w) :
    CaughtUp (b.send w) w (run (step rom) s ins n) := by
  by_cases hrst : rstBit w = true
  · obtain ⟨m, rfl⟩ := Nat.exists_eq_add_of_le' (show 1 ≤ n by omega)
    have hi : (ins m).rstI = true := by
      rw [Input.rstI, show (ins m).axiFromPsI = w from hbus m (Nat.lt_succ_self m), hrst]
    exact .inl ⟨hrst, Board.send_of_rst hrst b, inReset_step rom _ hi⟩
  · have hclear : rstBit w = false := Bool.eq_false_iff.mpr hrst
    rcases h with ⟨-, rfl, hreset⟩ | ⟨-, -, hrests, -⟩
    · -- the first two clock periods lead out of reset
      obtain ⟨m, rfl⟩ := Nat.exists_eq_add_of_le (show 2 ≤ n by omega)
      have hrests := hreset.rests rom (i := ins 0) (j := ins 1)
        (by rw [Input.rstI, show (ins 0).axiFromPsI = w from hbus 0 (by omega), hclear])
        (by rw [Input.rstI, show (ins 1).axiFromPsI = w from hbus 1 (by omega), hclear])
      rw [run_add]
      exact hrests.caughtUp rom hclear (by omega) fun k hk => hbus (2 + k) (by omega)
    · exact hrests.caughtUp rom hclear (by omega) hbus

/-- A word that the core has taken in is no new command. -/
theorem CaughtUp.send_eq (h : CaughtUp b w s) : b.send w = b := by
  rcases h with ⟨hrst, rfl, -⟩ | ⟨hrst, hbus, -, -⟩
  · exact Board.send_of_rst hrst _
  · rw [Board.send, if_neg (Bool.eq_false_iff.mp hrst), hbus]
    simp [← hbus]

/-- The callback is then that of the register file. -/
theorem CaughtUp.answers (h : CaughtUp b w s) : b.Answers (axiToPsO s) := by
  rcases h with ⟨-, rfl, hreset⟩ | ⟨-, -, -, hanswers⟩
  · rw [hreset.posted]
    exact ⟨.reset, ⟨0#14, 0#14, 0#16, 0#16, 0#16, 0#16, 0#16, false⟩, rfl, rfl, rfl⟩
  · exact hanswers

end CaughtUp

/-! ## Accesses far apart -/

/-- The bus, when at least eight clock periods pass before each write and each read. -/
def slowGpio (rom : Nco.Rom) : Machine Call.Response Gpio
  | g, .pdhSendCmd raw, _, g' => (∃ n, 8 ≤ n ∧ Passes rom n g g'.core) ∧ g'.bus = raw
  | g, .pdhGetCallback, cb, g' =>
      (∃ n, 8 ≤ n ∧ Passes rom n g g'.core) ∧ g'.bus = g.bus ∧ cb = axiToPsO g'.core
  | g, _, _, g' => (∃ n, Passes rom n g g'.core) ∧ g'.bus = g.bus

/-- The bus allows this. -/
theorem gpio_of_slowGpio {rom : Nco.Rom} {g g' : Gpio} {c : Call} {r : c.Response}
    (h : slowGpio rom g c r g') : gpio rom g c r g' := by
  cases c with
  | pdhSendCmd raw =>
      rcases h with ⟨⟨n, hn, hpass⟩, hbus⟩
      exact ⟨⟨n, by omega, hpass⟩, hbus⟩
  | pdhGetCallback =>
      rcases h with ⟨⟨n, -, hpass⟩, hbus, hcb⟩
      exact ⟨⟨n, hpass⟩, hbus, hcb⟩
  | _ => exact h

section Refinement

variable {rom : Nco.Rom}

theorem Passes.trans {g g' : Gpio} {n m : ℕ} {s : State} (h : Passes rom n g g'.core)
    (hbus : g'.bus = g.bus) (h' : Passes rom m g' s) : Passes rom (n + m) g s := by
  rcases h with ⟨ins, hins, hcore⟩
  rcases h' with ⟨ins', hins', rfl⟩
  refine ⟨splice n ins ins', ?_, ?_⟩
  · intro k hk
    by_cases hlt : k < n
    · rw [splice_of_lt _ _ hlt, hins k hlt]
    · obtain ⟨j, rfl⟩ := Nat.exists_eq_add_of_le (Nat.le_of_not_lt hlt)
      rw [splice_add, hins' j (by omega), hbus]
  · rw [run_splice_add, ← hcore]

/-- The register file is where the core will be when it has taken in the word on the bus. -/
def Represents (rom : Nco.Rom) (b : Board) (g : Gpio) : Prop :=
  ∃ (b₀ : Board) (w : BitVec 32) (s₀ : State) (n : ℕ),
    CaughtUp b₀ w s₀ ∧ b = b₀.send g.bus ∧ Passes rom n ⟨s₀, g.bus⟩ g.core

theorem CaughtUp.represents {b : Board} {w : BitVec 32} {s : State} (h : CaughtUp b w s)
    (raw : BitVec 32) : Represents rom (b.send raw) ⟨s, raw⟩ :=
  ⟨b, w, s, 0, h, rfl, fun _ => ⟨0#32, 0#14, 0#14, false, false⟩, fun k hk => absurd hk (by omega),
    rfl⟩

/-- After eight more clock periods the core is there. -/
theorem Represents.caughtUp {b : Board} {g : Gpio} (h : Represents rom b g) {n : ℕ} {s : State}
    (hn : 8 ≤ n) (hpass : Passes rom n g s) : CaughtUp b g.bus s := by
  rcases h with ⟨b₀, w, s₀, m, hcaughtUp, rfl, hbefore⟩
  rcases hbefore.trans rfl hpass with ⟨ins, hins, rfl⟩
  exact caughtUp_run rom hcaughtUp (by omega) hins

/-- Waiting changes nothing. -/
theorem Represents.passes {b : Board} {g g' : Gpio} (h : Represents rom b g) {n : ℕ}
    (hpass : Passes rom n g g'.core) (hbus : g'.bus = g.bus) : Represents rom b g' := by
  rcases h with ⟨b₀, w, s₀, m, hcaughtUp, rfl, hbefore⟩
  refine ⟨b₀, w, s₀, m + n, hcaughtUp, by rw [hbus], ?_⟩
  rw [hbus]
  exact hbefore.trans rfl hpass

/-- An access to the core is one to the register file. -/
theorem slowGpio_step {b : Board} {g g' : Gpio} {c : Call} {r : c.Response}
    (hb : Represents rom b g) (h : slowGpio rom g c r g') :
    ∃ b', board b c r b' ∧ Represents rom b' g' := by
  cases c with
  | pdhSendCmd raw =>
      rcases h with ⟨⟨n, hn, hpass⟩, hbus⟩
      refine ⟨b.send raw, rfl, ?_⟩
      have hcaughtUp := hb.caughtUp hn hpass
      rw [← hbus]
      exact hcaughtUp.represents g'.bus
  | pdhGetCallback =>
      rcases h with ⟨⟨n, hn, hpass⟩, hbus, rfl⟩
      exact ⟨b, ⟨rfl, (hb.caughtUp hn hpass).answers⟩, hb.passes hpass hbus⟩
  | _ =>
      rcases h with ⟨⟨n, hpass⟩, hbus⟩
      exact ⟨b, rfl, hb.passes hpass hbus⟩

/-- What the core does, when the accesses are far apart, is what the register file does. -/
theorem slowGpio_refines {b : Board} {g g' : Gpio} {tr : List ((c : Call) × c.Response)}
    (hb : Represents rom b g) (hfollows : Follows (slowGpio rom) g tr g') :
    ∃ b', Follows board b tr b' ∧ Represents rom b' g' :=
  hfollows.simulates (fun _ _ _ _ _ => slowGpio_step) hb

/-- From reset, the register file answers as the core does. -/
theorem slowGpio_refines_reset {g : Gpio} {tr : List ((c : Call) × c.Response)}
    (hfollows : Follows (slowGpio rom) ⟨heldInReset rom, 0x80000000#32⟩ tr g) :
    ∃ b, Follows board resetBoard tr b ∧ Represents rom b g := by
  have hcaughtUp : CaughtUp resetBoard 0x80000000#32 (heldInReset rom) :=
    .inl ⟨by decide, rfl, inReset_step rom _ (by decide)⟩
  have hrep : Represents rom (resetBoard.send 0x80000000#32) ⟨heldInReset rom, 0x80000000#32⟩ :=
    hcaughtUp.represents _
  rw [hcaughtUp.send_eq] at hrep
  exact slowGpio_refines hrep hfollows

end Refinement

end Requests
end PoundDreverHall
