import PoundDreverHall.Clocked.Events
import PoundDreverHall.Decoder.CommandStream

/-!
# Interrupts - which pulses a run raises

An interrupt is raised when an ordinary command is strobed and when a DMA
transfer completes.  The two sources share one register, and the synchroniser of
the ready level starts low although the idle DMA controller holds it high.  This
file gives the interrupt output as a function of the samples and says when each
event has an interrupt of its own and nothing else has one.

Main results:

- Theorem {lit}`irqO_run`: the interrupt output is the disjunction of the two
  events, four edges later.
- Theorem {lit}`pulses_irq`: what a run raises, with the spurious interrupt after
  reset and the merged ones.
- Theorem {lit}`interrupts_exact_iff`: the interrupts are exact if and only if the
  interrupt that leaving reset raises is that of a command, and no two events
  share an interrupt.
-/

namespace PoundDreverHall
namespace PdhCore

open Clocked

/-! ## Events -/

/-- A command that interrupts on its strobe. -/
def interrupting (w : BitVec 32) : Bool :=
  cmdW w != .idle && cmdW w != .getFrame

/-- An interrupting command is strobed in sample {lit}`k`. -/
def commandEvent (ins : ℕ → Input) (k : ℕ) : Bool :=
  rise strobeBit (busWords ins) k && interrupting (busWords ins k)

/-- Samples of the ready level of the DMA controller. -/
def readyLevel (ins : ℕ → Input) (k : ℕ) : Bool :=
  (ins k).dmaReadyI

/-- The synchronised ready level rises with sample {lit}`k`; the synchroniser
starts low, so the first sample rises if it is high. -/
def readyEvent (ins : ℕ → Input) (k : ℕ) : Bool :=
  rise id (readyLevel ins) k

/-- A transfer that was under way is complete in sample {lit}`k`. -/
def transferEvent (ins : ℕ → Input) : ℕ → Bool
  | 0 => false
  | k + 1 => readyLevel ins (k + 1) && !readyLevel ins k

/-- An event that raises the interrupt. -/
def irqEvent (ins : ℕ → Input) (k : ℕ) : Bool :=
  commandEvent ins k || readyEvent ins k

/-! ## The interrupt output -/

section Runs

variable (rom : Nco.Rom) (p : Path) {ins : ℕ → Input} (hins : ∀ n, (ins n).rstI = false)

include hins

/-- The three registers of the ready level. -/
theorem dmaReady3ff_run (n : ℕ) :
    (run (step rom) (afterReset p) ins n).orch.dmaReady3ff =
      delayed 3 false (readyLevel ins) n := by
  have hlive := run_live rom (live_afterReset p) hins
  have h1 : ∀ n, (run (step rom) (afterReset p) ins n).orch.dmaReady1ff =
      delayed 1 false (readyLevel ins) n :=
    eq_delayed_succ rfl fun n => by rw [run_succ, step_live rom (hlive n) (hins n)]; rfl
  have h2 : ∀ n, (run (step rom) (afterReset p) ins n).orch.dmaReady2ff =
      delayed 2 false (readyLevel ins) n :=
    eq_delayed_succ rfl fun n => by
      rw [run_succ, step_live rom (hlive n) (hins n), ← h1]
      rfl
  have h3 : ∀ n, (run (step rom) (afterReset p) ins n).orch.dmaReady3ff =
      delayed 3 false (readyLevel ins) n :=
    eq_delayed_succ rfl fun n => by
      rw [run_succ, step_live rom (hlive n) (hins n), ← h2]
      rfl
  exact h3 n

/-- An edge of the ready level is a rise of its samples, three edges later. -/
theorem dmaReadyEdgeW_run (n : ℕ) :
    (run (step rom) (afterReset p) ins n).orch.dmaReadyEdgeW =
      rise id (delayed 3 false (readyLevel ins)) n := by
  have hprev : (run (step rom) (afterReset p) ins n).orch.uDmaEdgeDetector.prevD =
      levelBefore id (delayed 3 false (readyLevel ins)) n := by
    cases n with
    | zero => rfl
    | succ n =>
        have hlive := run_live rom (live_afterReset p) hins n
        rw [run_succ, step_live rom hlive (hins n), levelBefore, ← dmaReady3ff_run rom p hins]
        rfl
  rw [Orchestrator.dmaReadyEdgeW, PosedgeDetector.q, dmaReady3ff_run rom p hins, hprev, rise]
  rfl

/-- The interrupt output is high four edges after an event, and only then. -/
theorem irqO_run (n : ℕ) :
    irqO (run (step rom) (afterReset p) ins n) = delayed 4 false (irqEvent ins) n := by
  have hnext : ∀ n, irqO (run (step rom) (afterReset p) ins (n + 1)) =
      delayed 3 false (irqEvent ins) n := by
    intro n
    have hlive := run_live rom (live_afterReset p) hins n
    rw [irqO, run_succ, step_live rom hlive (hins n)]
    simp only [nextIrqR, strobeEdgeW_run rom p hins, dmaReadyEdgeW_run rom p hins, cmdIncomingW,
      axi3ffR_run rom p hins]
    rcases Nat.lt_or_ge n 3 with hlt | hge
    · rw [rise_delayed_of_lt _ (show strobeBit 0#32 = false from rfl) hlt,
        rise_delayed_of_lt _ rfl hlt, delayed_of_lt false _ hlt]
      rfl
    · obtain ⟨k, rfl⟩ := Nat.exists_eq_add_of_le' hge
      rw [rise_delayed _ (show strobeBit 0#32 = false from rfl), rise_delayed _ rfl, delayed_add,
        delayed_add]
      simp only [irqEvent, commandEvent, interrupting, readyEvent]
      cases rise strobeBit (busWords ins) k <;> cases cmdW (busWords ins k) <;>
        cases rise id (readyLevel ins) k <;> rfl
  have hall : ∀ n, irqO (run (step rom) (afterReset p) ins n) =
      delayed 4 false (irqEvent ins) n := eq_delayed_succ rfl hnext
  exact hall n

end Runs

/-! ## Counts -/

/-- Samples among the first {lit}`n` in which an interrupting command is strobed. -/
def commandCount (ins : ℕ → Input) (n : ℕ) : ℕ := cycles (commandEvent ins) n

/-- Transfers completed in the first {lit}`n` samples. -/
def transferCount (ins : ℕ → Input) (n : ℕ) : ℕ := cycles (transferEvent ins) n

/-- Samples among the first {lit}`n` in which both events coincide. -/
def coincidences (ins : ℕ → Input) (n : ℕ) : ℕ :=
  cycles (fun k => commandEvent ins k && readyEvent ins k) n

/-- Samples among the first {lit}`n` whose event directly follows another one. -/
def adjacencies (ins : ℕ → Input) (n : ℕ) : ℕ :=
  cycles (fun k => irqEvent ins k && levelBefore id (irqEvent ins) k) n

section Counts

variable (ins : ℕ → Input)

/-- Leaving reset with the ready level high counts as one rise too many. -/
theorem cycles_readyEvent (hready : (ins 0).dmaReadyI = true) (n : ℕ) :
    cycles (readyEvent ins) (n + 1) = transferCount ins (n + 1) + 1 := by
  rw [transferCount]
  induction n with
  | zero => simp [cycles_succ, readyEvent, transferEvent, rise, levelBefore, readyLevel, hready]
  | succ n ih =>
      rw [cycles_succ, ih, cycles_succ (transferEvent ins) (n + 1)]
      have hsame : readyEvent ins (n + 1) = transferEvent ins (n + 1) := by
        simp [readyEvent, transferEvent, rise, levelBefore]
      rw [hsame]
      omega

/-- Events, with coincident ones counted once. -/
theorem cycles_irqEvent (hready : (ins 0).dmaReadyI = true) (n : ℕ) :
    cycles (irqEvent ins) (n + 1) + coincidences ins (n + 1) =
      commandCount ins (n + 1) + transferCount ins (n + 1) + 1 := by
  have hunion := cycles_or_add_and (commandEvent ins) (readyEvent ins) (n + 1)
  rw [cycles_readyEvent ins hready] at hunion
  unfold irqEvent coincidences commandCount
  omega

end Counts

section Exact

variable (rom : Nco.Rom) (p : Path) {ins : ℕ → Input} (hins : ∀ n, (ins n).rstI = false)
  (hready : (ins 0).dmaReadyI = true)

/-- The interrupt output of a run. -/
def irqTrace (rom : Nco.Rom) (p : Path) (ins : ℕ → Input) (n : ℕ) : Bool :=
  irqO (run (step rom) (afterReset p) ins n)

include hins hready

omit hready in
theorem irqTrace_eq : irqTrace rom p ins = delayed 4 false (irqEvent ins) :=
  funext fun k => irqO_run rom p hins k

/-- Separate pulses of the interrupt, once the synchronisers have drained. -/
theorem pulses_irq (n : ℕ) :
    pulses (irqTrace rom p ins) (n + 5) + adjacencies ins (n + 1) + coincidences ins (n + 1) =
      commandCount ins (n + 1) + transferCount ins (n + 1) + 1 := by
  have hdelay : pulses (delayed 4 false (irqEvent ins)) (n + 5) =
      pulses (irqEvent ins) (n + 1) := pulses_delayed (irqEvent ins) 4 (n + 1)
  have hstretch := pulses_add_cycles (irqEvent ins) (n + 1)
  rw [← cycles_irqEvent ins hready, irqTrace_eq rom p hins, hdelay, adjacencies, ← hstretch]

end Exact

/-! ## Exact interrupts -/

/-- What interrupts are for. -/
inductive Source where
  | command
  | transfer
deriving DecidableEq, Repr

/-- The source has an event in sample {lit}`k`. -/
def occurs (ins : ℕ → Input) : Source → ℕ → Bool
  | .command => commandEvent ins
  | .transfer => transferEvent ins

/-- A command is strobed or a transfer is complete in sample {lit}`k`. -/
def anyEvent (ins : ℕ → Input) (k : ℕ) : Bool :=
  commandEvent ins k || transferEvent ins k

/-- The interrupts for the first {lit}`n` samples are exact, where {lit}`pulse` says in which cycles
there is one.  Every event raises one four edges later, not shared with another event, and there is
no other; so there are as many as there are commands and transfers. -/
structure InterruptsExact (pulse : ℕ → Bool) (ins : ℕ → Input) (n : ℕ) : Prop where
  raised : Set.BijOn (fun e => e.2 + 4) (eventsBefore (occurs ins) n) (highBefore pulse (n + 4))
  count : cycles pulse (n + 4) = commandCount ins n + transferCount ins n

theorem exists_occurs (ins : ℕ → Input) (k : ℕ) :
    (∃ i, occurs ins i k = true) ↔ anyEvent ins k = true := by
  rw [anyEvent, Bool.or_eq_true]
  constructor
  · rintro ⟨i, hi⟩
    cases i with
    | command => exact .inl hi
    | transfer => exact .inr hi
  · rintro (h | h)
    · exact ⟨.command, h⟩
    · exact ⟨.transfer, h⟩

theorem occurs_unique (ins : ℕ → Input) (k : ℕ) :
    (∀ i j, occurs ins i k = true → occurs ins j k = true → i = j) ↔
      ¬(commandEvent ins k = true ∧ transferEvent ins k = true) := by
  constructor
  · rintro h ⟨hcommand, htransfer⟩
    exact absurd (h .command .transfer hcommand htransfer) (by decide)
  · intro h i j hi hj
    cases i <;> cases j
    · rfl
    · exact absurd ⟨hi, hj⟩ h
    · exact absurd ⟨hj, hi⟩ h
    · rfl

/-- The interrupts are exact if the events, and nothing else, raise them, one each. -/
theorem interruptsExact_delayed_iff (ins : ℕ → Input) (x : ℕ → Bool) (n : ℕ) :
    InterruptsExact (delayed 4 false x) ins n ↔
      (∀ k < n, x k = anyEvent ins k) ∧
        ∀ k < n, ¬(commandEvent ins k = true ∧ transferEvent ins k = true) := by
  have hraised := bijOn_delayed_iff (occurs ins) x 4 n
  simp only [exists_occurs, occurs_unique, ← Bool.eq_iff_iff] at hraised
  constructor
  · intro h
    exact hraised.mp h.raised
  · rintro ⟨hhigh, hone⟩
    refine ⟨hraised.mpr ⟨hhigh, hone⟩, ?_⟩
    rw [cycles_delayed]
    exact cycles_of_exclusive hhigh hone

section Ready

variable {ins : ℕ → Input} (hready : (ins 0).dmaReadyI = true)

include hready

/-- The first sample raises an interrupt, and it is that of a command or of none. -/
theorem irqEvent_zero :
    irqEvent ins 0 = true ∧ (irqEvent ins 0 = anyEvent ins 0 ↔ commandEvent ins 0 = true) := by
  have hrise : readyEvent ins 0 = true := by
    simp [readyEvent, rise, levelBefore, readyLevel, hready]
  rw [irqEvent, hrise, Bool.or_true, anyEvent, transferEvent, Bool.or_false]
  exact ⟨rfl, eq_comm⟩

omit hready in
/-- From then on the events raise the interrupts. -/
theorem irqEvent_succ (ins : ℕ → Input) (k : ℕ) : irqEvent ins (k + 1) = anyEvent ins (k + 1) := by
  simp [irqEvent, anyEvent, readyEvent, transferEvent, rise, levelBefore]

/-- Each high cycle is for an event. -/
theorem irqEvent_eq_iff (n : ℕ) :
    (∀ k < n + 1, irqEvent ins k = anyEvent ins k) ↔ commandEvent ins 0 = true := by
  rw [← (irqEvent_zero hready).2]
  constructor
  · intro h
    exact h 0 (Nat.succ_pos n)
  · intro h k _
    cases k with
    | zero => exact h
    | succ k => exact irqEvent_succ ins k

/-- Each stretch of high cycles is for an event. -/
theorem rise_irqEvent_eq_iff (n : ℕ) :
    (∀ k < n + 1, rise id (irqEvent ins) k = anyEvent ins k) ↔
      commandEvent ins 0 = true ∧
        ∀ k < n, ¬(anyEvent ins k = true ∧ anyEvent ins (k + 1) = true) := by
  have hfirst : rise id (irqEvent ins) 0 = irqEvent ins 0 := Bool.and_true _
  have hlater : ∀ k, rise id (irqEvent ins) (k + 1) =
      (anyEvent ins (k + 1) && !irqEvent ins k) := by
    intro k
    rw [rise, levelBefore, id, id, irqEvent_succ]
  constructor
  · intro h
    have hzero : commandEvent ins 0 = true := by
      rw [← (irqEvent_zero hready).2, ← hfirst]
      exact h 0 (Nat.succ_pos n)
    have hsame := (irqEvent_eq_iff hready n).mpr hzero
    refine ⟨hzero, fun k hk => ?_⟩
    rintro ⟨hbefore, hnow⟩
    have hrise := h (k + 1) (Nat.succ_lt_succ hk)
    rw [hlater, hsame k (Nat.lt_succ_of_lt hk), hbefore, hnow] at hrise
    exact absurd hrise (by decide)
  · rintro ⟨hzero, hapart⟩ k hk
    have hsame := (irqEvent_eq_iff hready n).mpr hzero
    cases k with
    | zero => rw [hfirst, hsame 0 hk]
    | succ k =>
        have hk' : k < n := Nat.lt_of_succ_lt_succ hk
        rw [hlater, hsame k (Nat.lt_succ_of_lt hk')]
        have h := hapart k hk'
        cases hbefore : anyEvent ins k with
        | false => exact Bool.and_true _
        | true =>
            cases hnow : anyEvent ins (k + 1) with
            | false => rfl
            | true => exact absurd ⟨hbefore, hnow⟩ h

end Ready

/-- Leaving reset raises an interrupt in any case, so the interrupts are exact only if a command is
strobed in the first sample, whose interrupt that one is then.  Besides, no command may be strobed
in the sample in which a transfer is complete.  If a stretch of high cycles counts as one interrupt,
no two samples may have events one directly after the other either. -/
theorem interrupts_exact_iff (rom : Nco.Rom) (p : Path) (ins : ℕ → Input)
    (hins : ∀ n, (ins n).rstI = false) (hready : (ins 0).dmaReadyI = true) (n : ℕ) :
    (InterruptsExact (irqTrace rom p ins) ins (n + 1) ↔
      commandEvent ins 0 = true ∧
        ∀ k < n + 1, ¬(commandEvent ins k = true ∧ transferEvent ins k = true)) ∧
    (InterruptsExact (rise id (irqTrace rom p ins)) ins (n + 1) ↔
      (commandEvent ins 0 = true ∧
        ∀ k < n, ¬(anyEvent ins k = true ∧ anyEvent ins (k + 1) = true)) ∧
        ∀ k < n + 1, ¬(commandEvent ins k = true ∧ transferEvent ins k = true)) := by
  rw [irqTrace_eq rom p hins, rise_delayed_eq]
  constructor
  · rw [interruptsExact_delayed_iff, irqEvent_eq_iff hready]
  · rw [interruptsExact_delayed_iff, rise_irqEvent_eq_iff hready]

/-- A command is strobed as the core leaves reset, and a transfer is complete seven samples
later. -/
def busyBus (k : ℕ) : Input where
  axiFromPsI := 0x44000000#32
  adcDatAI := 0#14
  adcDatBI := 0#14
  dmaReadyI := k < 3 || 7 ≤ k
  bramReadyI := true

/-- On that bus the interrupts are exact. -/
theorem interrupts_exact_iff_busyBus :
    InterruptsExact (irqTrace (fun _ => 0#16) Path.reset busyBus) busyBus 10 ∧
      InterruptsExact (rise id (irqTrace (fun _ => 0#16) Path.reset busyBus)) busyBus 10 ∧
        commandCount busyBus 10 = 1 ∧ transferCount busyBus 10 = 1 := by
  have hrst : ∀ n, (busyBus n).rstI = false := fun n => by simp [Input.rstI, busyBus, rstBit]
  have hexact := interrupts_exact_iff (fun _ => 0#16) Path.reset busyBus hrst rfl 9
  refine ⟨hexact.1.mpr ⟨?_, ?_⟩, hexact.2.mpr ⟨⟨?_, ?_⟩, ?_⟩, ?_, ?_⟩ <;> decide

/-! ## An idle bus -/

/-- Nothing is ever strobed and the DMA controller stays ready. -/
def idleBus (_ : ℕ) : Input where
  axiFromPsI := 0#32
  adcDatAI := 0#14
  adcDatBI := 0#14
  dmaReadyI := true
  bramReadyI := true

theorem idleBus_rstI (n : ℕ) : (idleBus n).rstI = false := by
  simp [Input.rstI, idleBus, rstBit]

theorem commandEvent_idleBus (k : ℕ) : commandEvent idleBus k = false := by
  simp [commandEvent, rise, busWords, idleBus, strobeBit]

theorem transferEvent_idleBus (k : ℕ) : transferEvent idleBus k = false := by
  cases k <;> rfl

/-- Leaving reset raises one interrupt, without a command and without a
transfer. -/
theorem idleBus_counts (n : ℕ) :
    pulses (irqTrace (fun _ => 0#16) Path.reset idleBus) (n + 5) = 1 ∧
      commandCount idleBus (n + 1) = 0 ∧ transferCount idleBus (n + 1) = 0 := by
  have hcommand : commandCount idleBus (n + 1) = 0 :=
    Nat.count_iff_forall_not.mpr fun k _ => by simp [commandEvent_idleBus]
  have htransfer : transferCount idleBus (n + 1) = 0 :=
    Nat.count_iff_forall_not.mpr fun k _ => by simp [transferEvent_idleBus]
  have hcoincide : coincidences idleBus (n + 1) = 0 :=
    Nat.count_iff_forall_not.mpr fun k _ => by simp [commandEvent_idleBus]
  have hadjacent : adjacencies idleBus (n + 1) = 0 := by
    refine Nat.count_iff_forall_not.mpr fun k _ => ?_
    cases k with
    | zero => simp [levelBefore]
    | succ k => simp [irqEvent, commandEvent_idleBus, readyEvent, rise, levelBefore, readyLevel,
        idleBus]
  have hpulses := pulses_irq (fun _ => 0#16) Path.reset idleBus_rstI rfl n
  exact ⟨by omega, hcommand, htransfer⟩

/-- On the idle bus the interrupts are never as many as the commands and transfers. -/
theorem idleBus_interrupts :
    ¬∃ n, pulses (irqTrace (fun _ => 0#16) Path.reset idleBus) (n + 5) =
      commandCount idleBus (n + 1) + transferCount idleBus (n + 1) := by
  rintro ⟨n, h⟩
  obtain ⟨hpulses, hcommand, htransfer⟩ := idleBus_counts n
  omega

end PdhCore
end PoundDreverHall
