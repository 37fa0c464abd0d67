import PoundDreverHall.Decoder.Refinement

/-!
# Command decoder - a sequence of writes from any state

A handler writes its words one after the other, and the core goes on clocking in
between.  From any state outside reset, the registers then pass through the results
of the commands, one command after the other: first the ones still in the
synchroniser, then those of the sequence.

Main results:

- Theorem {lit}`latch_carries`: the core executes the pending commands, then the rising
  words of the sequence.
- Theorem {lit}`forall_regs_iff`: the registers take the value after every prefix of the
  commands, and no other.
-/

namespace PoundDreverHall
namespace PdhCore

open Clocked

/-! ## Sequences of words -/

/-- The words of a list at which the strobe rises. -/
def risingWords (words : List (BitVec 32)) : List (BitVec 32) :=
  risen strobeBit (fun j => words.getD j 0#32) words.length

/-- A word rises if its strobe is high and that of the next word is not. -/
theorem risingWords_cons {u : BitVec 32} {words : List (BitVec 32)}
    (hcut : strobeBit (words.getD 0 0#32) = true → strobeBit u = false) :
    risingWords (u :: words) = (if strobeBit u then [u] else []) ++ risingWords words := by
  have hsplit := @risen_add _ strobeBit (fun j => (u :: words).getD j 0#32) 1 hcut words.length
  have hrest : (fun k => (u :: words).getD (1 + k) 0#32) = fun k => words.getD k 0#32 := by
    funext k
    rw [Nat.add_comm 1 k]
    rfl
  have hfirst : risen strobeBit (fun j => (u :: words).getD j 0#32) 1 =
      if strobeBit u then [u] else [] := by
    rw [risen_succ strobeBit _ 0]
    simp [risen, rise, levelBefore]
  rw [hrest, hfirst] at hsplit
  rw [risingWords, List.length_cons, Nat.add_comm, hsplit]
  rfl

/-! ## Commands in flight -/

/-- The commands that the synchroniser holds and has still to latch. -/
def inFlight (l : Latch) : List (BitVec 32) :=
  (load l).toList ++
    (if strobeBit l.axi2ffR && !strobeBit l.axi3ffR then [l.axi2ffR] else []) ++
    if strobeBit l.axi1ffR && !strobeBit l.axi2ffR then [l.axi1ffR] else []

/-- The latched command, which is still being executed, and the commands in flight. -/
def pending (l : Latch) : List (BitVec 32) :=
  l.axiFromPsR :: inFlight l

section Live

variable (rom : Nco.Rom) {s : State} (hs : Live s) {ins : ℕ → Input}
  (hins : ∀ n, (ins n).rstI = false)

include hs hins

/-- The latch after one clock period. -/
theorem latch_succ (n : ℕ) :
    (run (step rom) s ins (n + 1)).latch =
      { axi1ffR := (ins n).axiFromPsI
        axi2ffR := (run (step rom) s ins n).latch.axi1ffR
        axi3ffR := (run (step rom) s ins n).latch.axi2ffR
        uStrobeEdgeDetector := { prevD := strobeBit (run (step rom) s ins n).latch.axi3ffR }
        axiFromPsR := (run (step rom) s ins n).latch.nextAxiFromPsW } := by
  rw [run_succ, step_live rom (run_live rom hs hins n) (hins n)]

/-- The word that leaves the synchroniser entered it three clock periods before. -/
theorem axi3ffR_add_three (n : ℕ) :
    (run (step rom) s ins (n + 3)).latch.axi3ffR = busWords ins n := by
  rw [latch_succ rom hs hins, latch_succ rom hs hins, latch_succ rom hs hins]
  rfl

/-- What is loaded once the synchroniser has been filled from the bus. -/
theorem load_add_four (n : ℕ) :
    load (run (step rom) s ins (n + 4)).latch =
      if rise strobeBit (busWords ins) (n + 1) then some (busWords ins (n + 1)) else none := by
  have hprev : (run (step rom) s ins (n + 4)).latch.uStrobeEdgeDetector.prevD =
      strobeBit (busWords ins n) := by
    rw [latch_succ rom hs hins (n + 3), axi3ffR_add_three rom hs hins]
  have hword : (run (step rom) s ins (n + 4)).latch.axi3ffR = busWords ins (n + 1) :=
    axi3ffR_add_three rom hs hins (n + 1)
  rw [load, Latch.strobeEdgeW, PosedgeDetector.q, hprev, hword]
  rfl

/-- The words in the synchroniser are latched first. -/
theorem loaded_three :
    loaded (fun k => load (run (step rom) s ins k).latch) 3 = inFlight s.latch := by
  have htwo : load (run (step rom) s ins 2).latch =
      if strobeBit s.latch.axi1ffR && !strobeBit s.latch.axi2ffR then some s.latch.axi1ffR
      else none := by
    rw [latch_succ rom hs hins 1, latch_succ rom hs hins 0]
    rfl
  have hone : load (run (step rom) s ins 1).latch =
      if strobeBit s.latch.axi2ffR && !strobeBit s.latch.axi3ffR then some s.latch.axi2ffR
      else none := by
    rw [latch_succ rom hs hins 0]
    rfl
  rw [loaded_succ, loaded_succ, loaded_succ, hone, htwo, inFlight]
  simp only [loaded, log_zero, run_zero, List.nil_append]
  congr 1
  · congr 1
    split_ifs <;> rfl
  · split_ifs <;> rfl

/-- What is loaded when the first word of the bus leaves the synchroniser. -/
theorem load_three :
    load (run (step rom) s ins 3).latch =
      if strobeBit (busWords ins 0) && !strobeBit s.latch.axi1ffR then some (busWords ins 0)
      else none := by
  have hprev : (run (step rom) s ins 3).latch.uStrobeEdgeDetector.prevD =
      strobeBit s.latch.axi1ffR := by
    rw [latch_succ rom hs hins 2, latch_succ rom hs hins 1, latch_succ rom hs hins 0]
    rfl
  rw [load, Latch.strobeEdgeW, PosedgeDetector.q, hprev, axi3ffR_add_three rom hs hins 0]

/-- Then the rising words of the bus. -/
theorem loaded_add_four
    (hstart : strobeBit (busWords ins 0) = true → strobeBit s.latch.axi1ffR = false) (n : ℕ) :
    loaded (fun k => load (run (step rom) s ins k).latch) (n + 4) =
      inFlight s.latch ++ risen strobeBit (busWords ins) (n + 1) := by
  induction n with
  | zero =>
      rw [Nat.zero_add, Nat.zero_add, loaded_succ, loaded_three rom hs hins, load_three rom hs hins,
        risen_succ strobeBit _ 0, rise]
      cases hlevel : strobeBit (busWords ins 0) with
      | false => simp [risen]
      | true => simp [risen, hstart hlevel, levelBefore]
  | succ n ih =>
      rw [Nat.add_right_comm, loaded_succ, ih, load_add_four rom hs hins,
        risen_succ strobeBit _ (n + 1), List.append_assoc]
      congr 2
      split_ifs <;> rfl

/-- Once nothing more is loaded, the core has executed the word it held and what was loaded. -/
theorem latch_carries_of_loaded {n : ℕ} {l : List (BitVec 32)}
    (h : ∀ k, n ≤ k → loaded (fun k => load (run (step rom) s ins k).latch) k = l) :
    Carries (fun n => (run (step rom) s ins n).latch.axiFromPsR) (s.latch.axiFromPsR :: l) := by
  have hlatch : ∀ n, (run (step rom) s ins (n + 1)).latch.axiFromPsR =
      (load (run (step rom) s ins n).latch).getD (run (step rom) s ins n).latch.axiFromPsR := by
    intro n
    rw [latch_succ rom hs hins, nextAxiFromPsW_eq]
  have hcarries := carries_of_loaded (a := fun n => (run (step rom) s ins n).latch.axiFromPsR)
    hlatch fun k hk => by rw [h k hk, h n (Nat.le_refl n)]
  rwa [h n (Nat.le_refl n)] at hcarries

end Live

/-- A bus that shows one word without the reset bit does not reset the core. -/
theorem rstI_of_silent {ins : ℕ → Input} {w : BitVec 32} (hbus : ∀ n, busWords ins n = w)
    (hrst : rstBit w = false) (n : ℕ) : (ins n).rstI = false := by
  rw [Input.rstI, show (ins n).axiFromPsI = w from hbus n, hrst]

section Carries

variable (rom : Nco.Rom) {s : State} (hs : Live s) {ins : ℕ → Input}
  {words : List (BitVec 32)} (hbus : Carries (busWords ins) words)
  (hrst : ∀ w ∈ words, rstBit w = false)

include hbus hrst

theorem rstI_of_carries (n : ℕ) : (ins n).rstI = false := by
  rcases hbus with ⟨idx, -, hwords, -⟩
  exact hrst _ (List.mem_of_getElem? (hwords n))

include hs

/-- The core executes the pending commands, then those of the sequence. -/
theorem latch_carries_of_live
    (hstart : strobeBit (words.getD 0 0#32) = true → strobeBit s.latch.axi1ffR = false) :
    Carries (fun n => (run (step rom) s ins n).latch.axiFromPsR)
      (pending s.latch ++ risingWords words) := by
  have hins := rstI_of_carries hbus hrst
  rcases hbus with ⟨idx, hidx, hwords, last, hlast⟩
  have hbus : busWords ins = fun n => words.getD (idx n) 0#32 := by
    funext n
    rw [List.getD_eq_getElem?_getD, hwords n]
    rfl
  have hbusstart : strobeBit (busWords ins 0) = true → strobeBit s.latch.axi1ffR = false := by
    rw [hbus]
    simpa only [hidx.zero] using hstart
  -- nothing is loaded once the bus shows the last word
  have hall : ∀ n, last ≤ n → loaded (fun k => load (run (step rom) s ins k).latch) (n + 4) =
      inFlight s.latch ++ risingWords words := by
    intro n hn
    have hmono : idx last ≤ idx n := hidx.monotone hn
    have hbound : idx n < words.length := (List.getElem?_eq_some_iff.mp (hwords n)).1
    rw [loaded_add_four rom hs hins hbusstart, hbus,
      risen_held hidx strobeBit fun j => words.getD j 0#32, risingWords, ← hlast,
      show idx n = idx last by omega]
  apply latch_carries_of_loaded rom hs hins (n := last + 4)
  intro k hk
  obtain ⟨m, rfl⟩ := Nat.exists_eq_add_of_le' (show 4 ≤ k by omega)
  exact hall m (by omega)

end Carries

/-! ## Reachable states -/

/-- Both reset pipelines drain with the next clock period; everything else has been
reset. -/
structure Draining (s : State) : Prop where
  rst : s.rst = { rstSyncR := true, rstPipe1R := false }
  rstNe : s.rstNe = { rstSyncR := true, rstPipe1R := false }
  latch : s.latch = .reset
  regs : s.regs = .reset

/-- The state has been reached through a reset, and the word sampled last has no reset
bit. -/
def Reachable (rom : Nco.Rom) (s : State) : Prop :=
  ∃ (s₀ : State) (past : ℕ → Input) (m : ℕ), (∃ j < m, (past j).rstI = true) ∧
    (past m).rstI = false ∧ s = run (step rom) s₀ past (m + 1)

/-- A state after reset is reachable. -/
theorem exists_reachable_afterReset (rom : Nco.Rom) : ∃ p, Reachable rom (afterReset p) := by
  let past : ℕ → Input := fun n => ⟨[0x80000000#32].getD n 0#32, 0#14, 0#14, true, true⟩
  have h₀ : (past 0).rstI = true := by decide
  have h₁ : (past 1).rstI = false := by decide
  have h₂ : (past 2).rstI = false := by decide
  exact ⟨_, afterReset Path.reset, past, 2, ⟨0, Nat.two_pos, h₀⟩, h₂,
    (step_reset_drain rom (afterReset Path.reset) h₀ h₁ h₂).symm⟩

/-- Both reset pipelines are full. -/
def Asserted (s : State) : Prop :=
  s.rst = .asserted ∧ s.rstNe = .asserted

/-- One clock period under reset. -/
theorem step_rst (rom : Nco.Rom) {i : Input} (s : State) (hi : i.rstI = true) :
    Asserted (step rom i s) := by
  simp [Asserted, step, posedge, negedge, hi]

/-- The first clock period after a reset. -/
theorem draining_step (rom : Nco.Rom) {i : Input} {s : State} (hs : Asserted s)
    (hi : i.rstI = false) : Draining (step rom i s) := by
  constructor <;>
    simp [step, posedge, negedge, hi, hs.1, hs.2, ResetSync.asserted, Latch.step]

/-- The second clock period after a reset. -/
theorem step_draining (rom : Nco.Rom) {i : Input} {s : State} (hs : Draining s)
    (hi : i.rstI = false) :
    Live (step rom i s) ∧ (step rom i s).latch = .reset ∧ (step rom i s).regs = .reset := by
  simp [Live, step, posedge, negedge, hi, hs.rst, hs.rstNe, ResetSync.released, Latch.step]

theorem step_live_live (rom : Nco.Rom) {i : Input} {s : State} (hs : Live s)
    (hi : i.rstI = false) : Live (step rom i s) := by
  rw [step_live rom hs hi]
  exact ⟨rfl, rfl⟩

/-- The state has been reached through a reset. -/
def WasReset (rom : Nco.Rom) (s : State) : Prop :=
  ∃ (s₀ : State) (past : ℕ → Input) (m : ℕ), (∃ j < m, (past j).rstI = true) ∧
    s = run (step rom) s₀ past m

theorem wasReset_of_reachable {rom : Nco.Rom} {s : State} (h : Reachable rom s) :
    WasReset rom s := by
  rcases h with ⟨s₀, past, m, ⟨j, hjm, hj⟩, -, rfl⟩
  exact ⟨s₀, past, m + 1, ⟨j, by omega, hj⟩, rfl⟩

/-- After a reset the core is still in reset, leaves it, or is outside. -/
theorem WasReset.cases {rom : Nco.Rom} {s : State} (h : WasReset rom s) :
    Asserted s ∨ Draining s ∨ Live s := by
  rcases h with ⟨s₀, past, m, ⟨j, hjm, hj⟩, rfl⟩
  induction m, hjm using Nat.le_induction with
  | base => exact .inl (step_rst rom _ hj)
  | succ n hn ih =>
      rw [run_succ]
      by_cases hrst : (past n).rstI = true
      · exact .inl (step_rst rom _ hrst)
      · have hrst' : (past n).rstI = false := Bool.eq_false_iff.mpr hrst
        rcases ih with hasserted | hdraining | hlive
        · exact .inr (.inl (draining_step rom hasserted hrst'))
        · exact .inr (.inr (step_draining rom hdraining hrst').1)
        · exact .inr (.inr (step_live_live rom hlive hrst'))

/-- A reachable state is outside reset, or becomes so with the next clock period. -/
theorem Reachable.live_or_draining {rom : Nco.Rom} {s : State} (h : Reachable rom s) :
    Live s ∨ Draining s := by
  rcases h with ⟨s₀, past, m, hreset, hm, rfl⟩
  have hbefore : WasReset rom (run (step rom) s₀ past m) := ⟨s₀, past, m, hreset, rfl⟩
  rw [run_succ]
  rcases hbefore.cases with hasserted | hdraining | hlive
  · exact .inr (draining_step rom hasserted hm)
  · exact .inl (step_draining rom hdraining hm).1
  · exact .inl (step_live_live rom hlive hm)

/-! ## Sequences from a reachable state -/

theorem execRegs_zero (r : Regs) : execRegs 0#32 r = r :=
  rfl

section Reachable

variable (rom : Nco.Rom) {s : State} (hs : Reachable rom s) {ins : ℕ → Input}

include hs

/-- Every clock period executes the latched command. -/
theorem regs_succ (hins : ∀ n, (ins n).rstI = false) (n : ℕ) :
    (run (step rom) s ins (n + 1)).regs =
      execRegs (run (step rom) s ins n).latch.axiFromPsR (run (step rom) s ins n).regs := by
  have hlive : Live (run (step rom) s ins n) ∨ n = 0 ∧ Draining s := by
    rcases hs.live_or_draining with hlive | hdraining
    · exact .inl (run_live rom hlive hins n)
    · cases n with
      | zero => exact .inr ⟨rfl, hdraining⟩
      | succ n =>
          have hnext := (step_draining rom hdraining (hins 0)).1
          refine .inl ?_
          rw [Nat.add_comm, run_add]
          exact run_live rom hnext (fun k => hins (1 + k)) n
  rcases hlive with hlive | ⟨rfl, hdraining⟩
  · rw [run_succ, step_live rom hlive (hins n), next_eq_execRegs]
  · rw [run_succ, run_zero, (step_draining rom hdraining (hins 0)).2.2, hdraining.latch,
      hdraining.regs]
    exact (execRegs_zero .reset).symm

variable {u v : BitVec 32} {words : List (BitVec 32)}
  (hbus : Carries (busWords ins) (u :: v :: words))
  (hrst : ∀ w ∈ u :: v :: words, rstBit w = false) (hlow : strobeBit u = false)

include hbus hrst hlow

/-- From a reachable state, and along a sequence that starts with a word whose strobe is
low, the core executes the pending commands, then those of the sequence. -/
theorem latch_carries :
    Carries (fun n => (run (step rom) s ins n).latch.axiFromPsR)
      (pending s.latch ++ risingWords (u :: v :: words)) := by
  rcases hs.live_or_draining with hlive | hdraining
  · exact latch_carries_of_live rom hlive hbus hrst
      fun hhigh => absurd (hlow.symm.trans hhigh) Bool.false_ne_true
  · -- the first clock period is lost, and with it at most a word with its strobe low
    have hins := rstI_of_carries hbus hrst
    rcases step_draining rom hdraining (hins 0) with ⟨hlive, hlatch, -⟩
    have hstart : strobeBit (step rom (ins 0) s).latch.axi1ffR = false := by
      rw [hlatch]
      rfl
    refine Carries.of_succ ?_ rfl
    have hrun : ∀ n, run (step rom) s ins (n + 1) =
        run (step rom) (step rom (ins 0) s) (fun k => ins (k + 1)) n := by
      intro n
      rw [Nat.add_comm n 1, run_add]
      simp only [Nat.add_comm 1]
      rfl
    simp only [hrun]
    rw [hdraining.latch, ← hlatch]
    rcases hbus.succ with hstay | hmove
    · exact latch_carries_of_live rom hlive hstay hrst fun _ => hstart
    · have hrest : risingWords (u :: v :: words) = risingWords (v :: words) := by
        rw [risingWords_cons fun _ => hlow, hlow]
        rfl
      rw [hrest]
      exact latch_carries_of_live rom hlive hmove
        (fun w hw => hrst w (List.mem_cons_of_mem u hw)) fun _ => hstart

/-- The registers take the value after every prefix of the commands, and no other. -/
theorem forall_regs_iff {Q : Regs → Prop} :
    (∀ n, Q (run (step rom) s ins n).regs) ↔
      ∀ k, Q (after execRegs (pending s.latch ++ risingWords (u :: v :: words)) s.regs k) := by
  rcases latch_carries rom hs hbus hrst hlow with ⟨idx, hidx, hcmds, last, hlast⟩
  have hregs := eq_after_of_carries (c := fun n => (run (step rom) s ins n).regs)
    execRegs_execRegs (regs_succ rom hs (rstI_of_carries hbus hrst)) hidx hcmds
  constructor
  · intro h k
    cases k with
    | zero => exact h 0
    | succ k =>
        by_cases hk : k ≤ idx last
        · rcases hidx.exists_eq hk with ⟨n, -, hn⟩
          have hvalue := h (n + 1)
          rwa [hregs, hn] at hvalue
        · have hvalue := h (last + 1)
          rw [hregs, hlast] at hvalue
          rw [after, List.take_of_length_le (by omega)]
          rwa [after, List.take_length] at hvalue
  · intro h n
    cases n with
    | zero => exact h 0
    | succ n => exact hregs n ▸ h _

end Reachable

end PdhCore
end PoundDreverHall
