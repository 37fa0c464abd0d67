import PoundDreverHall.Clocked.Splice
import PoundDreverHall.Device.Triple
import PoundDreverHall.Requests.Words

/-!
# Requests - reading the callback of a command

`pdh_execute_cmd` writes the command word twice, with the strobe low and then high, and reads the
callback right away.  It does not wait for the interrupt, so the fabric has as many clock periods
for the command as happen to pass before the read.

Main results:

- Definition {lit}`gpio`: the clocked core behind the registers of the bus.
- Theorem {lit}`pdhExecuteCmd_sends`: a call shows the core its two words and returns what it
  posts some clock periods later.
- Theorem {lit}`belongs_iff`: when the word that is read belongs to the command.
-/

namespace PoundDreverHall
namespace Requests

open Clocked Device Server PdhCore

/-! ## The bus -/

/-- The core and the word on its bus. -/
structure Gpio where
  core : State
  bus : BitVec 32

/-- Clock periods pass while the bus shows a word. -/
def Passes (rom : Nco.Rom) (n : ℕ) (g : Gpio) (s : State) : Prop :=
  ∃ ins : ℕ → Input, (∀ k < n, (ins k).axiFromPsI = g.bus) ∧ s = run (step rom) g.core ins n

/-- An access to the registers of the bus: any number of clock periods pass before it, and before
a write at least one. -/
def gpio (rom : Nco.Rom) : Machine Call.Response Gpio
  | g, .pdhSendCmd raw, _, g' => (∃ n, 0 < n ∧ Passes rom n g g'.core) ∧ g'.bus = raw
  | g, .pdhGetCallback, cb, g' =>
      (∃ n, Passes rom n g g'.core) ∧ g'.bus = g.bus ∧ cb = axiToPsO g'.core
  | g, _, _, g' => (∃ n, Passes rom n g g'.core) ∧ g'.bus = g.bus

/-- The bus shows a command with the strobe low for {lit}`a` clock periods, and with the strobe
high from then on. -/
structure Sends (ins : ℕ → Input) (cmd : BitVec 32) (a : ℕ) : Prop where
  pos : 0 < a
  low : ∀ n < a, (ins n).axiFromPsI = PdhCmdT.strobe.set 0#1 cmd
  high : ∀ n, a ≤ n → (ins n).axiFromPsI = PdhCmdT.strobe.set 1#1 cmd

/-- A call of `pdh_execute_cmd` shows the core the two words, and returns what the core posts
{lit}`d` clock periods after the second one. -/
theorem pdhExecuteCmd_sends {rom : Nco.Rom} {g g' : Gpio} {cmd cb : BitVec 32}
    {tr : List ((c : Call) × c.Response)} (hrun : Program.Performs (pdhExecuteCmd cmd) tr cb)
    (hfollows : Follows (gpio rom) g tr g') :
    ∃ (n : ℕ) (s : State) (ins : ℕ → Input) (a d : ℕ), 0 < n ∧ Passes rom n g s ∧
      Sends ins cmd a ∧ cb = axiToPsO (run (step rom) s ins (a + d)) := by
  rcases Program.performs_bind.mp hrun with ⟨tr₁, _, tr', h₁, hrest, rfl⟩
  rcases Program.performs_bind.mp hrest with ⟨tr₂, _, tr₃, h₂, h₃, rfl⟩
  rw [Call.run, Program.performs_op] at h₁ h₂ h₃
  subst h₁ h₂ h₃
  rcases hfollows with _ | ⟨⟨⟨n, hn, hfirst⟩, hlow⟩, hfollows⟩
  rcases hfollows with _ | ⟨⟨⟨a, ha, ins₁, hbus₁, hsecond⟩, hhigh⟩, hfollows⟩
  rcases hfollows with _ | ⟨⟨⟨d, ins₂, hbus₂, hthird⟩, -, rfl⟩, -⟩
  rw [hlow] at hbus₁
  rw [hhigh] at hbus₂
  let hold : ℕ → Input := fun _ => ⟨PdhCmdT.strobe.set 1#1 cmd, 0#14, 0#14, true, true⟩
  refine ⟨n, _, splice a ins₁ (splice d ins₂ hold), a, d, hn, hfirst, ⟨ha, ?_, ?_⟩, ?_⟩
  · intro k hk
    rw [splice_of_lt _ _ hk, hbus₁ k hk]
  · intro k hk
    obtain ⟨k, rfl⟩ := Nat.exists_eq_add_of_le hk
    rw [splice_add]
    by_cases hkd : k < d
    · rw [splice_of_lt _ _ hkd, hbus₂ k hkd]
    · rw [splice, if_neg hkd]
  · rw [run_splice_add, run_splice_of_le _ _ _ (Nat.le_refl d), ← hsecond, ← hthird]

/-! ## The clock periods of a command -/

/-- The clock periods that are lost because the core still leaves its reset. -/
def drain (s : State) : ℕ :=
  s.rst.rstSyncR.toNat + s.rst.rstPipe1R.toNat

section Timing

variable (rom : Nco.Rom) {s : State} {ins : ℕ → Input}

/-- The core is outside reset once its reset pipelines have drained. -/
theorem live_drain (hs : WasReset rom s) (hins : ∀ n, (ins n).rstI = false) :
    Live (run (step rom) s ins (drain s)) ∧
      (drain s = 0 ∨ (run (step rom) s ins (drain s)).latch = .reset) ∧ drain s ≤ 2 := by
  rcases hs.cases with hasserted | hdraining | hlive
  · have hdrain : drain s = 2 := by
      rw [drain, hasserted.1]
      rfl
    have hnext := draining_step rom hasserted (hins 0)
    rcases step_draining rom hnext (hins 1) with ⟨hlive, hlatch, -⟩
    rw [hdrain]
    exact ⟨hlive, .inr hlatch, Nat.le_refl 2⟩
  · have hdrain : drain s = 1 := by
      rw [drain, hdraining.rst]
      rfl
    rcases step_draining rom hdraining (hins 0) with ⟨hlive, hlatch, -⟩
    rw [hdrain]
    exact ⟨hlive, .inr hlatch, Nat.le_succ 1⟩
  · have hdrain : drain s = 0 := by
      rw [drain, hlive.1]
      rfl
    rw [hdrain]
    exact ⟨hlive, .inl rfl, Nat.zero_le 2⟩

variable {cmd : BitVec 32} {a : ℕ}

theorem Sends.rstI (h : Sends ins cmd a) (hrst : rstBit cmd = false) (n : ℕ) :
    (ins n).rstI = false := by
  by_cases hn : n < a
  · rw [Input.rstI, h.low n hn, rstBit_strobe, hrst]
  · rw [Input.rstI, h.high n (by omega), rstBit_strobe, hrst]

/-- When the core samples the word with the strobe high, it is outside reset, and its last sample
had the strobe low. -/
theorem Sends.live (h : Sends ins cmd a) (hs : WasReset rom s) (hrst : rstBit cmd = false) :
    Live (run (step rom) s ins (max a (drain s))) ∧
      strobeBit (run (step rom) s ins (max a (drain s))).latch.axi1ffR = false ∧
      (a < drain s → (run (step rom) s ins (max a (drain s))).latch = .reset) := by
  have hins := h.rstI hrst
  rcases live_drain rom hs hins with ⟨hlive, hlatch, -⟩
  have ha := h.pos
  by_cases hlate : a ≤ drain s
  · have hreset : (run (step rom) s ins (drain s)).latch = .reset :=
      hlatch.resolve_left (by omega)
    rw [Nat.max_eq_right hlate]
    refine ⟨hlive, ?_, fun _ => hreset⟩
    rw [hreset]
    rfl
  · rw [Nat.max_eq_left (by omega)]
    obtain ⟨k, rfl⟩ : ∃ k, a = drain s + (k + 1) := ⟨a - drain s - 1, by omega⟩
    rw [run_add]
    refine ⟨run_live rom hlive (fun n => hins _) _, ?_, fun hlt => absurd hlt (by omega)⟩
    rw [latch_succ rom hlive (fun n => hins _), h.low _ (by omega), strobeBit_strobe]
    rfl

end Timing

section High

variable (rom : Nco.Rom) {s : State} (hs : Live s) {ins : ℕ → Input} {w : BitVec 32}
  (hbus : ∀ n, (ins n).axiFromPsI = w) (hrst : rstBit w = false)

include hs hbus hrst

/-- What the core posts after one clock period. -/
theorem axiToPsO_succ (n : ℕ) :
    axiToPsO (run (step rom) s ins (n + 1)) =
      nextCallbackW (run (step rom) s ins n).latch.axiFromPsR (run (step rom) s ins n).regs
        (DacRegs.next (run (step rom) s ins n).latch.axiFromPsR (run (step rom) s ins n).dac)
        (observed (ins n) (run (step rom) s ins n)) := by
  have hins : ∀ n, (ins n).rstI = false := fun n => by rw [Input.rstI, hbus, hrst]
  rw [axiToPsO, run_succ, step_live rom (run_live rom hs hins n) (hins n)]

variable (hlow : strobeBit s.latch.axi1ffR = false) (hhigh : strobeBit w = true)

include hlow hhigh

/-- The word is loaded when it leaves the synchroniser, and not again. -/
theorem load_high (k : ℕ) :
    load (run (step rom) s ins (k + 3)).latch = if k = 0 then some w else none := by
  have hins : ∀ n, (ins n).rstI = false := fun n => by rw [Input.rstI, hbus, hrst]
  cases k with
  | zero =>
      rw [Nat.zero_add, load_three rom hs hins, busWords, hbus, hlow, hhigh]
      rfl
  | succ k =>
      have hrise : rise strobeBit (busWords ins) (k + 1) = false := by
        simp [rise, levelBefore, busWords, hbus, hhigh]
      rw [Nat.add_right_comm, load_add_four rom hs hins, hrise]
      rfl

/-- From then on the core executes it. -/
theorem axiFromPsR_high (k : ℕ) : (run (step rom) s ins (k + 4)).latch.axiFromPsR = w := by
  have hins : ∀ n, (ins n).rstI = false := fun n => by rw [Input.rstI, hbus, hrst]
  induction k with
  | zero =>
      rw [Nat.zero_add, latch_succ rom hs hins, nextAxiFromPsW_eq,
        load_high rom hs hbus hrst hlow hhigh 0]
      rfl
  | succ k ih =>
      rw [Nat.add_right_comm, latch_succ rom hs hins, nextAxiFromPsW_eq, ih]
      rw [load_high rom hs hbus hrst hlow hhigh (k + 1)]
      rfl

/-- One clock period later the registers have taken its values. -/
theorem next_regs_high (k : ℕ) :
    Regs.next w (run (step rom) s ins (k + 5)).regs = (run (step rom) s ins (k + 5)).regs := by
  have hins : ∀ n, (ins n).rstI = false := fun n => by rw [Input.rstI, hbus, hrst]
  have hstep : (run (step rom) s ins (k + 5)).regs =
      execRegs w (run (step rom) s ins (k + 4)).regs := by
    rw [run_succ, step_live rom (run_live rom hs hins _) (hins _), next_eq_execRegs,
      axiFromPsR_high rom hs hbus hrst hlow hhigh k]
  rw [hstep, next_eq_execRegs, execRegs_execRegs]

end High

/-! ## The word that is read -/

section Belongs

variable (rom : Nco.Rom) (s : State) (ins : ℕ → Input) (cmd : BitVec 32) (a d : ℕ)

/-- The callback of a command on the registers after its execution, in the clock period
{lit}`n`. -/
def callbackAt (n : ℕ) : BitVec 32 :=
  nextCallbackW (PdhCmdT.strobe.set 1#1 cmd)
    (Regs.next (PdhCmdT.strobe.set 1#1 cmd) (run (step rom) s ins n).regs)
    (DacRegs.next (PdhCmdT.strobe.set 1#1 cmd) (run (step rom) s ins n).dac)
    (observed (ins n) (run (step rom) s ins n))

/-- The word read {lit}`d` clock periods after the second write belongs to the command: the core
loaded the word that was sampled from the second write on (the synchroniser delays it by three
clock periods) and posted its callback in a later clock period. -/
def Belongs : Prop :=
  ∃ j k, a + 3 ≤ j ∧ load (run (step rom) s ins j).latch = some (PdhCmdT.strobe.set 1#1 cmd) ∧
    j < k ∧ k < a + d ∧ axiToPsO (run (step rom) s ins (a + d)) = callbackAt rom s ins cmd k

/-- In the clock period {lit}`n`, the callback shows nothing that the command changes. -/
def ShowsNoChange (n : ℕ) : Prop :=
  nextCallbackW (PdhCmdT.strobe.set 1#1 cmd) (run (step rom) s ins n).regs
      (DacRegs.next (PdhCmdT.strobe.set 1#1 cmd) (run (step rom) s ins n).dac)
      (observed (ins n) (run (step rom) s ins n)) =
    callbackAt rom s ins cmd n

end Belongs

section Read

variable (rom : Nco.Rom) {s : State} (hs : WasReset rom s) {cmd : BitVec 32}
  (hrst : rstBit cmd = false) {ins : ℕ → Input} {a : ℕ} (h : Sends ins cmd a)

include hs hrst h

/-- The word of the request is loaded when it leaves the synchroniser, and not again. -/
theorem Sends.load_eq_some {j : ℕ} (hj : a + 3 ≤ j) :
    load (run (step rom) s ins j).latch = some (PdhCmdT.strobe.set 1#1 cmd) ↔
      j = max a (drain s) + 3 := by
  rcases h.live rom hs hrst with ⟨hlive, hlow, hreset⟩
  have hdrain := (live_drain rom hs (h.rstI hrst)).2.2
  have ha := h.pos
  have hload := load_high rom hlive (fun n => h.high (max a (drain s) + n) (by omega))
    ((rstBit_strobe 1#1 cmd).trans hrst) hlow (strobeBit_strobe 1#1 cmd)
  by_cases hlate : max a (drain s) + 3 ≤ j
  · obtain ⟨k, rfl⟩ := Nat.exists_eq_add_of_le hlate
    have hk := hload k
    rw [← run_add, Nat.add_comm k, ← Nat.add_assoc] at hk
    rw [hk]
    cases k with
    | zero => simp
    | succ k => simp
  · -- the synchroniser has been reset since the second write
    have hlast : j = max a (drain s) + 2 := by omega
    have hins : ∀ n, (ins (max a (drain s) + n)).rstI = false := fun n => h.rstI hrst _
    have hword : (run (step rom) s ins j).latch.axi3ffR = 0#32 := by
      rw [hlast, run_add, latch_succ rom hlive hins, latch_succ rom hlive hins]
      change (run (step rom) s ins (max a (drain s))).latch.axi1ffR = 0#32
      rw [hreset (by omega)]
      rfl
    have hnone : load (run (step rom) s ins j).latch = none := by
      rw [load, Latch.strobeEdgeW, PosedgeDetector.q, hword]
      rfl
    rw [hnone]
    constructor
    · intro hsome
      cases hsome
    · intro hj'
      omega

/-- What is read right after the core has loaded the word, one clock period later, and from then
on. -/
theorem Sends.axiToPsO_eq (k : ℕ) :
    axiToPsO (run (step rom) s ins (max a (drain s) + (k + 5))) =
      nextCallbackW (PdhCmdT.strobe.set 1#1 cmd)
        (run (step rom) s ins (max a (drain s) + (k + 4))).regs
        (DacRegs.next (PdhCmdT.strobe.set 1#1 cmd)
          (run (step rom) s ins (max a (drain s) + (k + 4))).dac)
        (observed (ins (max a (drain s) + (k + 4)))
          (run (step rom) s ins (max a (drain s) + (k + 4)))) := by
  rcases h.live rom hs hrst with ⟨hlive, hlow, -⟩
  have hbus : ∀ n, (ins (max a (drain s) + n)).axiFromPsI = PdhCmdT.strobe.set 1#1 cmd :=
    fun n => h.high _ (by omega)
  have hrst' := (rstBit_strobe 1#1 cmd).trans hrst
  rw [run_add _ _ _ (max a (drain s)) (k + 5), run_add _ _ _ (max a (drain s)) (k + 4),
    axiToPsO_succ rom hlive hbus hrst' (k + 4),
    axiFromPsR_high rom hlive hbus hrst' hlow (strobeBit_strobe 1#1 cmd)]

theorem Sends.next_regs (k : ℕ) :
    Regs.next (PdhCmdT.strobe.set 1#1 cmd)
        (run (step rom) s ins (max a (drain s) + (k + 5))).regs =
      (run (step rom) s ins (max a (drain s) + (k + 5))).regs := by
  rcases h.live rom hs hrst with ⟨hlive, hlow, -⟩
  rw [run_add]
  exact next_regs_high rom hlive (fun n => h.high _ (by omega))
    ((rstBit_strobe 1#1 cmd).trans hrst) hlow (strobeBit_strobe 1#1 cmd) k

/-- The word that `pdh_execute_cmd` reads belongs to its command if and only if six clock periods
pass before the read (or five, and the callback shows nothing that the command changes), counted
from the first clock period in which the core samples the second word outside its reset. -/
theorem belongs_iff (d : ℕ) :
    Belongs rom s ins cmd a d ↔
      max a (drain s) + 6 ≤ a + d ∨
        max a (drain s) + 5 = a + d ∧ ShowsNoChange rom s ins cmd (max a (drain s) + 4) := by
  constructor
  · rintro ⟨j, k, haj, hload, hjk, hkd, hread⟩
    have hj := (h.load_eq_some rom hs hrst haj).mp hload
    by_cases hlate : max a (drain s) + 6 ≤ a + d
    · exact .inl hlate
    · have hk : k = max a (drain s) + 4 := by omega
      have hd : a + d = max a (drain s) + (0 + 5) := by omega
      rw [hd, h.axiToPsO_eq rom hs hrst, hk] at hread
      exact .inr ⟨by omega, hread⟩
  · intro hd
    have hload := (h.load_eq_some rom hs hrst (by omega)).mpr rfl
    rcases hd with hlate | ⟨hd, hsame⟩
    · obtain ⟨k, hk⟩ : ∃ k, a + d = max a (drain s) + (k + 1 + 5) :=
        ⟨a + d - (max a (drain s) + 6), by omega⟩
      refine ⟨_, max a (drain s) + (k + 5), by omega, hload, by omega, by omega, ?_⟩
      rw [hk, h.axiToPsO_eq rom hs hrst, callbackAt, Nat.add_right_comm k 1 4,
        h.next_regs rom hs hrst]
    · refine ⟨_, max a (drain s) + 4, by omega, hload, by omega, by omega, ?_⟩
      rw [← hd, ← hsame]
      exact h.axiToPsO_eq rom hs hrst 0

end Read

/-! ## A command read too early -/

/-- `CMD_SET_LED` with code 170. -/
def ledCmd : BitVec 32 :=
  PdhCmdT.ledCode.set 170#8 (cmdWord .setLed)

/-- The bus shows the command, one clock period with the strobe low. -/
def ledBus (n : ℕ) : Input where
  axiFromPsI := PdhCmdT.strobe.set (if n < 1 then 0#1 else 1#1) ledCmd
  adcDatAI := 0#14
  adcDatBI := 0#14
  dmaReadyI := true
  bramReadyI := true

theorem ledBus_sends : Sends ledBus ledCmd 1 := by
  refine ⟨Nat.one_pos, fun n hn => ?_, fun n hn => ?_⟩
  · rw [ledBus, if_pos hn]
  · rw [ledBus, if_neg (by omega)]

theorem nextCallbackW_ledCmd (r : Regs) (d : DacRegs) (o : Observed) :
    nextCallbackW (PdhCmdT.strobe.set 1#1 ledCmd) (Regs.next (PdhCmdT.strobe.set 1#1 ledCmd) r) d
      o = 0x100000AA#32 := by
  have hcmd : cmdW (PdhCmdT.strobe.set 1#1 ledCmd) = .setLed := by decide
  have hdata : (dataW (PdhCmdT.strobe.set 1#1 ledCmd)).extractLsb' 0 8 = 170#8 := by decide
  simp only [nextCallbackW, Regs.next, hcmd, if_true, hdata]
  decide

/-- The exact condition, for the LED command read after six clock periods. -/
theorem belongs_iff_led :
    ∃ p, Belongs (fun _ => 0#16) (afterReset p) ledBus ledCmd 1 6 ↔
      max 1 (drain (afterReset p)) + 6 ≤ 1 + 6 ∨
        max 1 (drain (afterReset p)) + 5 = 1 + 6 ∧
          ShowsNoChange (fun _ => 0#16) (afterReset p) ledBus ledCmd
            (max 1 (drain (afterReset p)) + 4) := by
  rcases exists_reachable_afterReset (fun _ => 0#16) with ⟨p, hp⟩
  exact ⟨p, belongs_iff (fun _ => 0#16) (wasReset_of_reachable hp) (by decide) ledBus_sends 6⟩

/-- After reset, the LED command read right after the second write gets the callback that was
there before. -/
theorem led_reads_stale :
    ∃ p, WasReset (fun _ => 0#16) (afterReset p) ∧ Sends ledBus ledCmd 1 ∧
      axiToPsO (run (step fun _ => 0#16) (afterReset p) ledBus (1 + 0)) = 0#32 ∧
      (∀ n, callbackAt (fun _ => 0#16) (afterReset p) ledBus ledCmd n = 0x100000AA#32) ∧
      ¬Belongs (fun _ => 0#16) (afterReset p) ledBus ledCmd 1 0 := by
  rcases exists_reachable_afterReset (fun _ => 0#16) with ⟨p, hp⟩
  refine ⟨p, wasReset_of_reachable hp, ledBus_sends, ?_, fun n => ?_, ?_⟩
  · have hidle : cmdW 0#32 = .idle := by decide
    rw [axiToPsO, Nat.add_zero, run_succ, run_zero, step_live _ (live_afterReset p) (by decide)]
    simp only [afterReset, Latch.reset, nextCallbackW, hidle]
  · exact nextCallbackW_ledCmd _ _ _
  · rintro ⟨j, k, hj, -, hjk, hk, -⟩
    omega

end Requests
end PoundDreverHall
