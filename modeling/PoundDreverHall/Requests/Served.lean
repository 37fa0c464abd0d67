import PoundDreverHall.Requests.FilterRest
import PoundDreverHall.Requests.FrameTrace

/-!
# Requests - the filter between requests

Between two requests the staging memory cannot be written, and its address register still
selects the entry that the coefficient register was stored to last, or the first one.  This
file shows so for every state that requests can lead to, resets and requests in the middle
of a reset included.

Main results:

- Definition {lit}`Served`: the states between requests.
- Theorem {lit}`spares_spec`: only `cmd_set_fir` sends commands to the filter.
- Theorem {lit}`served_between`: what holds between requests.
-/

namespace PoundDreverHall
namespace Requests

open Clocked Device Device.Program Server PdhCore

/-! ## Reset -/

/-- The core is in reset, or leaves it with the next clock period. -/
structure Resetting (s : State) : Prop where
  pipes : Asserted s ∨ Draining s
  latch : s.latch = .reset
  regs : s.regs = .reset
  coeffs : Fir.coeffs s.path.uFir = fun _ => 0#16

/-- The core is in reset or outside. -/
def Known (s : State) : Prop :=
  Resetting s ∨ Live s

section Reset

variable (rom : Nco.Rom) {i : Input} {s : State}

/-- Nothing is pending after a reset. -/
theorem settled_of_reset (hlatch : s.latch = .reset) (hregs : s.regs = .reset) :
    settled s = (.reset, s.path.uFir.tapCoeffs) := by
  rw [settled, hlatch, hregs]
  rfl

/-- A cycle of reset leaves the core in reset. -/
theorem resetting_of_rst (s : State) (hi : i.rstI = true) : Resetting (step rom i s) := by
  refine ⟨.inl (step_rst rom s hi), ?_, ?_, ?_⟩
  · simp [step, posedge, negedge, asyncReset, hi, Latch.step, ResetSync.asserted]
  · simp [step, posedge, negedge, asyncReset, hi, ResetSync.asserted]
  · have hpath : (step rom i s).path.uFir =
        Fir.step (Path.firInput true s.regs s.path) s.path.uFir := by
      simp [step, posedge, negedge, asyncReset, hi, Path.step, ResetSync.asserted]
    rw [hpath, Fir.coeffs_step]
    rfl

/-- In reset the registers keep their values. -/
theorem Resetting.step (h : Resetting s) (hi : i.rstI = false) :
    Known (step rom i s) ∧ settled (step rom i s) = settled s ∧
      (step rom i s).latch = .reset ∧ Fir.coeffs (step rom i s).path.uFir = fun _ => 0#16 := by
  have hcoeffs : s.rst.rstSyncR = true →
      Fir.coeffs (PdhCore.step rom i s).path.uFir = fun _ => 0#16 := by
    intro hrst
    have hpath : (PdhCore.step rom i s).path.uFir =
        Fir.step (Path.firInput true s.regs s.path) s.path.uFir := by
      simp [PdhCore.step, posedge, negedge, hi, hrst, Path.step]
    rw [hpath, Fir.coeffs_step]
    rfl
  have hstaging : (PdhCore.step rom i s).path.uFir.tapCoeffs = s.path.uFir.tapCoeffs := by
    rw [tapCoeffs_step, h.regs]
    rfl
  have hsame : (PdhCore.step rom i s).latch = .reset → (PdhCore.step rom i s).regs = .reset →
      settled (PdhCore.step rom i s) = settled s := by
    intro hlatch hregs
    rw [settled_of_reset hlatch hregs, settled_of_reset h.latch h.regs, hstaging]
  rcases h.pipes with hasserted | hdraining
  · have hnext := draining_step rom hasserted hi
    have hzero := hcoeffs (by rw [hasserted.1]; rfl)
    exact ⟨.inl ⟨.inr hnext, hnext.latch, hnext.regs, hzero⟩, hsame hnext.latch hnext.regs,
      hnext.latch, hzero⟩
  · rcases step_draining rom hdraining hi with ⟨hlive, hlatch, hregs⟩
    exact ⟨.inr hlive, hsame hlatch hregs, hlatch, hcoeffs (by rw [hdraining.rst])⟩

/-- Once the core has been reset, it stays in a known state. -/
theorem known_step (h : Known s) (i : Input) : Known (step rom i s) := by
  cases hi : i.rstI with
  | true => exact .inl (resetting_of_rst rom s hi)
  | false =>
      rcases h with hreset | hlive
      · exact (hreset.step rom hi).1
      · exact .inr (step_live_live rom hlive hi)

/-- Two clock periods without a reset lead outside. -/
theorem live_of_two (h : Known s) {i' : Input} (hi : i.rstI = false) (hi' : i'.rstI = false) :
    Live (step rom i' (step rom i s)) := by
  rcases h with hreset | hlive
  · rcases hreset.pipes with hasserted | hdraining
    · exact (step_draining rom (draining_step rom hasserted hi) hi').1
    · exact step_live_live rom (step_draining rom hdraining hi).1 hi'
  · exact step_live_live rom (step_live_live rom hlive hi) hi'

/-- What the core comes to rest at changes by the word on the bus at most. -/
theorem settled_step_cases (h : Known s) (hi : i.rstI = false) :
    settled (step rom i s) = settled s ∨
      settled (step rom i s) = execStaging i.axiFromPsI (settled s) := by
  rcases h with hreset | hlive
  · exact .inl (hreset.step rom hi).2.1
  · rw [settled_step rom hlive hi]
    split_ifs
    · exact .inr rfl
    · exact .inl rfl

end Reset

/-! ## Effects on the filter -/

/-- What a load reads and writes: the registers of the filter besides the selected input, and
the staging memory. -/
def loadPart (c : Regs × CoeffSet) : BitVec 5 × BitVec 16 × Bool × Bool × CoeffSet :=
  (c.1.tapAddrR, c.1.tapCoeffR, c.1.tapMemWriteEnR, c.1.tapChainWriteEnR, c.2)

/-- The staging memory cannot be written, and to write the coefficient register to it once more
changes no entry but the first. -/
structure Consistent (c : Regs × CoeffSet) : Prop where
  closed : c.1.tapMemWriteEnR = false
  entry : c.1.tapAddrR = 0#5 ∨ c.2 c.1.tapAddrR = c.1.tapCoeffR

/-- Only the part that a load changes matters. -/
theorem Consistent.congr {c c' : Regs × CoeffSet} (h : Consistent c)
    (hsame : loadPart c' = loadPart c) : Consistent c' := by
  simp only [loadPart, Prod.mk.injEq] at hsame
  rcases hsame with ⟨haddr, hcoeff, hmem, -, hstaging⟩
  refine ⟨hmem.trans h.closed, ?_⟩
  rw [haddr, hcoeff, hstaging]
  exact h.entry

/-- Whatever the coefficients are, the registers of a reset go with them. -/
theorem consistent_reset (m : CoeffSet) : Consistent (.reset, m) :=
  ⟨rfl, .inl rfl⟩

/-- The command does not let the taps keep their coefficients once they load. -/
def KeepsChain (w : BitVec 32) : Prop :=
  ∀ r : Regs, r.tapChainWriteEnR = true → (execRegs w r).tapChainWriteEnR = true

/-- A command that is not one of the filter changes none of its registers. -/
theorem execRegs_of_ne {w : BitVec 32} (h : cmdW w ≠ .setFir) (r : Regs) :
    (execRegs w r).tapAddrR = r.tapAddrR ∧ (execRegs w r).tapCoeffR = r.tapCoeffR ∧
      (execRegs w r).tapMemWriteEnR = r.tapMemWriteEnR ∧
      (execRegs w r).tapChainWriteEnR = r.tapChainWriteEnR ∧
      (execRegs w r).firInputSelR = r.firInputSelR := by
  rw [← next_eq_execRegs]
  simp [Regs.next, h]

/-- A command of another kind keeps the switch of the chain. -/
theorem keepsChain_of_ne {w : BitVec 32} (h : cmdW w ≠ .setFir) : KeepsChain w :=
  fun r hr => (execRegs_of_ne h r).2.2.2.1.trans hr

/-- A command of another kind changes nothing of the filter while its memory is closed. -/
theorem execStaging_of_ne {w : BitVec 32} (h : cmdW w ≠ .setFir) {c : Regs × CoeffSet}
    (hc : c.1.tapMemWriteEnR = false) :
    loadPart (execStaging w c) = loadPart c ∧
      (execStaging w c).1.firInputSelR = c.1.firInputSelR := by
  rcases execRegs_of_ne h c.1 with ⟨haddr, hcoeff, hmem, hchain, hsel⟩
  refine ⟨?_, hsel⟩
  simp [loadPart, execStaging, writeStaging, haddr, hcoeff, hmem, hchain, hc]

/-- A filter write keeps the switch of the chain unless it clears it. -/
theorem keepsChain_setFirWord {sel : FirUpdateSelE} {payload : BitVec 16}
    (h : sel = .chainWriteEn → payload.getLsbD 0 = true) :
    KeepsChain (setFirWord sel payload) := by
  intro r hr
  rw [execRegs_setFirWord]
  cases sel with
  | chainWriteEn => exact h rfl
  | _ => exact hr

/-- The strobe makes no difference. -/
theorem keepsChain_strobe {w : BitVec 32} (h : KeepsChain w) (v : BitVec 1) :
    KeepsChain (PdhCmdT.strobe.set v w) := by
  intro r hr
  rw [execRegs_strobe]
  exact h r hr

/-- The selection of an input loads nothing. -/
theorem execStaging_inputSel (v : BitVec 1) (payload : BitVec 16) {c : Regs × CoeffSet}
    (hc : c.1.tapMemWriteEnR = false) :
    loadPart (execStaging (PdhCmdT.strobe.set v (setFirWord .inputSel payload)) c) = loadPart c ∧
      (execStaging (PdhCmdT.strobe.set v (setFirWord .inputSel payload)) c).1.firInputSelR =
        payload.setWidth 3 := by
  rw [execStaging_strobe, execStaging, execRegs_setFirWord]
  refine ⟨?_, rfl⟩
  simp [loadPart, writeFir, writeStaging, hc]

/-! ## Between requests -/

/-- What holds between requests; {lit}`w` is the word on the bus.  The word stays on the bus, so
it is the one sampled last, or it sends the filter nothing. -/
structure Between (s : State) (w : BitVec 32) : Prop where
  known : Known s
  consistent : Consistent (settled s)
  pending : ∀ c ∈ pending s.latch, KeepsChain c
  word : rstBit w = true ∧ Resetting s ∨
    rstBit w = false ∧ KeepsChain w ∧ (Live s ∧ s.latch.axi1ffR = w ∨ cmdW w ≠ .setFir)

section Between

variable (rom : Nco.Rom) {i : Input} {s : State} {w : BitVec 32}

theorem keepsChain_zero : KeepsChain 0#32 :=
  keepsChain_of_ne (by decide)

theorem pending_reset {l : Latch} (h : l = .reset) : pending l = [0#32] := by
  rw [h]
  rfl

/-- A clock period takes at most the word on the bus into the pending commands. -/
theorem mem_pending_step {c : BitVec 32} (hs : Known s) (hi : i.rstI = false)
    (hc : c ∈ PdhCore.pending (step rom i s).latch) :
    c ∈ PdhCore.pending s.latch ∨ c = i.axiFromPsI := by
  rcases hs with hreset | hlive
  · rw [(hreset.step rom hi).2.2.1] at hc
    exact .inl (hreset.latch ▸ hc)
  · have hlatch : (step rom i s).latch = s.latch.step false i.axiFromPsI := by
      rw [step_live rom hlive hi]
      rfl
    rw [hlatch, PdhCore.pending] at hc
    rw [PdhCore.pending]
    rcases List.mem_cons.mp hc with hfirst | hrest
    · change c = s.latch.nextAxiFromPsW at hfirst
      rw [nextAxiFromPsW_eq] at hfirst
      cases hload : load s.latch with
      | none =>
          rw [hload, Option.getD_none] at hfirst
          exact .inl (hfirst ▸ List.mem_cons_self)
      | some u =>
          rw [hload, Option.getD_some] at hfirst
          refine .inl (List.mem_cons_of_mem _ ?_)
          rw [inFlight, hload, hfirst]
          simp
    · have hmem : c ∈ (load s.latch).toList ++ inFlight (s.latch.step false i.axiFromPsI) :=
        List.mem_append_right _ hrest
      rw [inFlight_step] at hmem
      rcases List.mem_append.mp hmem with hbefore | hnew
      · exact .inl (List.mem_cons_of_mem _ hbefore)
      · split_ifs at hnew
        · exact .inr (List.mem_singleton.mp hnew)
        · exact absurd hnew List.not_mem_nil

/-- What is on its way stays harmless when the word on the bus is. -/
theorem pending_keepsChain (hs : Known s) (hpending : ∀ c ∈ PdhCore.pending s.latch, KeepsChain c)
    (hword : i.rstI = true ∨ KeepsChain i.axiFromPsI) :
    ∀ c ∈ PdhCore.pending (step rom i s).latch, KeepsChain c := by
  intro c hc
  cases hi : i.rstI with
  | true =>
      rw [pending_reset (resetting_of_rst rom s hi).latch, List.mem_singleton] at hc
      exact hc ▸ keepsChain_zero
  | false =>
      rcases mem_pending_step rom hs hi hc with hbefore | rfl
      · exact hpending c hbefore
      · exact hword.resolve_left (by rw [hi]; exact Bool.false_ne_true)

/-- The word on the bus may stay there. -/
theorem Between.step_same (h : Between s w) (hi : i.axiFromPsI = w) :
    Between (step rom i s) w ∧ loadPart (settled (step rom i s)) = loadPart (settled s) ∧
      (settled (step rom i s)).1.firInputSelR = (settled s).1.firInputSelR := by
  have hknown := known_step rom h.known i
  rcases h.word with ⟨hrst, hreset⟩ | ⟨hrst, hkeeps, hword⟩
  · have hi' : i.rstI = true := by rw [Input.rstI, hi, hrst]
    have hnext := resetting_of_rst rom s hi'
    have hsettled : settled (step rom i s) = settled s := by
      rw [settled_of_reset hnext.latch hnext.regs, settled_of_reset hreset.latch hreset.regs,
        tapCoeffs_step, hreset.regs]
      rfl
    refine ⟨⟨hknown, hsettled ▸ h.consistent,
      pending_keepsChain rom h.known h.pending (.inl hi'), .inl ⟨hrst, hnext⟩⟩, ?_, ?_⟩
    · rw [hsettled]
    · rw [hsettled]
  · have hi' : i.rstI = false := by rw [Input.rstI, hi, hrst]
    have hsame : loadPart (settled (step rom i s)) = loadPart (settled s) ∧
        (settled (step rom i s)).1.firInputSelR = (settled s).1.firInputSelR := by
      rcases hword with ⟨hlive, hlatch⟩ | hne
      · rw [settled_step rom hlive hi', hi, hlatch]
        simp
      · rcases settled_step_cases rom h.known hi' with hstay | hexec
        · rw [hstay]
          exact ⟨rfl, rfl⟩
        · rw [hexec, hi]
          exact execStaging_of_ne hne h.consistent.closed
    refine ⟨⟨hknown, h.consistent.congr hsame.1,
      pending_keepsChain rom h.known h.pending (.inr (hi ▸ hkeeps)), .inr ⟨hrst, hkeeps, ?_⟩⟩,
      hsame⟩
    rcases hword with ⟨hlive, -⟩ | hne
    · refine .inl ⟨step_live_live rom hlive hi', ?_⟩
      rw [step_live rom hlive hi']
      exact hi
    · exact .inr hne

/-- A word for another part of the core may follow. -/
theorem Between.step_other (h : Between s w) (hi : cmdW i.axiFromPsI ≠ .setFir) :
    Between (step rom i s) i.axiFromPsI := by
  have hknown := known_step rom h.known i
  have hkeeps := keepsChain_of_ne hi
  have hpending := pending_keepsChain rom h.known h.pending (.inr hkeeps)
  cases hrst : i.rstI with
  | true =>
      have hnext := resetting_of_rst rom s hrst
      refine ⟨hknown, ?_, hpending, .inl ⟨hrst, hnext⟩⟩
      rw [settled_of_reset hnext.latch hnext.regs]
      exact consistent_reset _
  | false =>
      refine ⟨hknown, ?_, hpending, .inr ⟨hrst, hkeeps, .inr hi⟩⟩
      rcases settled_step_cases rom h.known hrst with hstay | hexec
      · rw [hstay]
        exact h.consistent
      · rw [hexec]
        exact h.consistent.congr (execStaging_of_ne hi h.consistent.closed).1

variable {ins : ℕ → Input}

/-- While the word stays, nothing of the filter changes. -/
theorem Between.run_same (h : Between s w) {n : ℕ} (hbus : ∀ k < n, busWords ins k = w) :
    Between (run (step rom) s ins n) w ∧
      loadPart (settled (run (step rom) s ins n)) = loadPart (settled s) ∧
      (settled (run (step rom) s ins n)).1.firInputSelR = (settled s).1.firInputSelR := by
  induction n with
  | zero => exact ⟨h, rfl, rfl⟩
  | succ n ih =>
      rcases ih fun k hk => hbus k (Nat.lt_succ_of_lt hk) with ⟨hbetween, hload, hsel⟩
      rcases hbetween.step_same rom (hbus n (Nat.lt_succ_self n)) with ⟨hnext, hload', hsel'⟩
      exact ⟨hnext, hload'.trans hload, hsel'.trans hsel⟩

/-- Words of other commands lead from one such state to another. -/
theorem Between.run_other (h : Between s w) (hbus : ∀ k, cmdW (busWords ins k) ≠ .setFir)
    (n : ℕ) : Between (run (step rom) s ins (n + 1)) (busWords ins n) := by
  induction n with
  | zero => exact h.step_other rom (hbus 0)
  | succ n ih => exact ih.step_other rom (hbus (n + 1))

end Between

/-! ## A load between requests -/

/-- The writes of a request after the selection of the input. -/
def enabledWrites (cs : List (BitVec 16)) : List (BitVec 32) :=
  setFirWord .memWriteEn 1#16 ::
    (coeffWrites 0 cs ++ [setFirWord .memWriteEn 0#16, setFirWord .chainWriteEn 1#16])

/-- The writes of a load, with the input selection first. -/
theorem firWrites_eq (inputSel : BitVec 16) (cs : List (BitVec 16)) :
    firWrites inputSel cs = setFirWord .inputSel inputSel :: enabledWrites cs :=
  rfl

/-- A coefficient is written by two filter writes, neither of a switch nor of the selection. -/
theorem exists_of_mem_coeffs {cs : List (BitVec 16)} {i : ℕ} {w : BitVec 32}
    (hw : w ∈ coeffWrites i cs) :
    ∃ sel payload, w = setFirWord sel payload ∧ sel ≠ .inputSel ∧ sel ≠ .chainWriteEn := by
  induction cs generalizing i with
  | nil => exact nomatch hw
  | cons c cs ih =>
      rcases List.mem_cons.mp hw with rfl | hw
      · exact ⟨.addr, _, rfl, nofun, nofun⟩
      · rcases List.mem_cons.mp hw with rfl | hw
        · exact ⟨.coeff, _, rfl, nofun, nofun⟩
        · exact ih hw

/-- These writes select no input, and let the taps load. -/
theorem exists_of_mem_enabledWrites {cs : List (BitVec 16)} {w : BitVec 32}
    (hw : w ∈ enabledWrites cs) :
    ∃ sel payload, w = setFirWord sel payload ∧ sel ≠ .inputSel ∧
      (sel = .chainWriteEn → payload.getLsbD 0 = true) := by
  rcases List.mem_cons.mp hw with rfl | hw
  · exact ⟨.memWriteEn, _, rfl, nofun, nofun⟩
  · rcases List.mem_append.mp hw with hw | hw
    · rcases exists_of_mem_coeffs hw with ⟨sel, payload, rfl, hsel, hchain⟩
      exact ⟨sel, payload, rfl, hsel, fun h => absurd h hchain⟩
    · rcases List.mem_pair.mp hw with rfl | rfl
      · exact ⟨.memWriteEn, _, rfl, nofun, nofun⟩
      · exact ⟨.chainWriteEn, _, rfl, nofun, fun _ => rfl⟩

/-- All writes of a request let the taps load. -/
theorem exists_of_mem_firWrites {inputSel : BitVec 16} {cs : List (BitVec 16)} {w : BitVec 32}
    (hw : w ∈ firWrites inputSel cs) :
    ∃ sel payload, w = setFirWord sel payload ∧
      (sel = .chainWriteEn → payload.getLsbD 0 = true) := by
  rcases List.mem_cons.mp hw with rfl | hw
  · exact ⟨.inputSel, inputSel, rfl, fun h => absurd h (by decide)⟩
  · rcases exists_of_mem_enabledWrites hw with ⟨sel, payload, rfl, -, hchain⟩
    exact ⟨sel, payload, rfl, hchain⟩

/-- No write of a load resets. -/
theorem rstBit_of_mem_firWrites (inputSel : BitVec 16) (cs : List (BitVec 16)) :
    ∀ w ∈ firWrites inputSel cs, rstBit w = false := by
  intro w hw
  rcases exists_of_mem_firWrites hw with ⟨sel, payload, rfl, -⟩
  exact rstBit_setFirWord sel payload

/-- No write of a load clears the switch of the chain. -/
theorem keepsChain_of_mem_firWrites (inputSel : BitVec 16) (cs : List (BitVec 16)) :
    ∀ w ∈ firWrites inputSel cs, KeepsChain w := by
  intro w hw
  rcases exists_of_mem_firWrites hw with ⟨sel, payload, rfl, hchain⟩
  exact keepsChain_setFirWord hchain

/-- Nor do the words of strobed commands, if the commands do not. -/
theorem keepsChain_of_mem_strobed {cmds : List (BitVec 32)} (h : ∀ c ∈ cmds, KeepsChain c) :
    ∀ w ∈ cmds.flatMap strobed, KeepsChain w := by
  intro w hw
  rcases List.mem_flatMap.mp hw with ⟨c, hc, hw⟩
  rcases List.mem_pair.mp hw with rfl | rfl
  · exact keepsChain_strobe (h c hc) _
  · exact keepsChain_strobe (h c hc) _

section Load

variable {c : Regs × CoeffSet}

/-- Between requests the writes load the coefficients, whatever the registers of the filter
hold, and end between requests. -/
theorem Consistent.load (h : Consistent c) (cs : List (BitVec 16)) :
    let c' := (enabledWrites cs).foldl (fun c w => execStaging w c) c
    Consistent c' ∧ c'.1.tapChainWriteEnR = true ∧ (cs ≠ [] → c'.2 = loadInto 0 cs c.2) := by
  -- the enable stores the coefficient register once more
  have hopen : Staged c.1.tapCoeffR (Function.update c.2 c.1.tapAddrR c.1.tapCoeffR)
      (execStaging (setFirWord .memWriteEn 1#16) c) := by
    refine ⟨?_, ?_, ?_⟩ <;> simp [execStaging, execRegs_setFirWord, writeFir, writeStaging]
  have hload := staged_coeffWrites cs 0 hopen (by simp [execStaging, execRegs_setFirWord, writeFir])
  have hclose := hload.execStaging .memWriteEn (by simp) (by simp) 0#16
  have hcommit := hclose.execStaging .chainWriteEn (by simp) (by simp) 1#16
  rw [enabledWrites, List.foldl_cons, List.foldl_append]
  refine ⟨⟨?_, .inr ?_⟩, ?_, fun hcs => ?_⟩
  · simp [execStaging, execRegs_setFirWord, writeFir]
  · rw [List.foldl_cons, List.foldl_cons, List.foldl_nil, hcommit.memory, hcommit.coeff]
    exact hcommit.entry
  · simp [execStaging, execRegs_setFirWord, writeFir]
  · rw [List.foldl_cons, List.foldl_cons, List.foldl_nil, hcommit.memory]
    rcases h.entry with hfirst | hstored
    · rw [hfirst]
      exact loadInto_update hcs 0 _ _
    · rw [← hstored, Function.update_eq_self]

/-- They leave the selected input as it is. -/
theorem inputSel_enabledWrites (cs : List (BitVec 16)) (c : Regs × CoeffSet) :
    ((enabledWrites cs).foldl (fun c w => execStaging w c) c).1.firInputSelR =
      c.1.firInputSelR := by
  have hwrite : ∀ w ∈ enabledWrites cs, ∀ c' : Regs × CoeffSet,
      c'.1.firInputSelR = c.1.firInputSelR →
        (execStaging w c').1.firInputSelR = c.1.firInputSelR := by
    intro w hw c' hc'
    rcases exists_of_mem_enabledWrites hw with ⟨sel, payload, rfl, hsel, -⟩
    rw [execStaging, execRegs_setFirWord]
    cases sel with
    | inputSel => exact absurd rfl hsel
    | _ => exact hc'
  have hkeep := after_invariant (Q := fun c' : Regs × CoeffSet =>
    c'.1.firInputSelR = c.1.firInputSelR) rfl hwrite (enabledWrites cs).length
  rwa [after_length] at hkeep

/-- Of a strobed command one word is executed. -/
theorem foldl_strobed (cmds : List (BitVec 32)) (c : Regs × CoeffSet) :
    (risingWords (cmds.flatMap strobed)).foldl (fun c w => execStaging w c) c =
      cmds.foldl (fun c w => execStaging w c) c := by
  rw [risingWords_strobed, List.foldl_map]
  simp only [execStaging_strobe]

end Load

/-- Where a load ends: outside reset, with the effect of its writes on registers {lit}`c`. -/
structure Loaded (cs : List (BitVec 16)) (c : Regs × CoeffSet) (s : State) (w : BitVec 32) :
    Prop where
  live : Live s
  settled_eq : settled s = (enabledWrites cs).foldl (fun c w => execStaging w c) c
  pending : ∀ c ∈ pending s.latch, KeepsChain c
  rst : rstBit w = false
  keeps : KeepsChain w
  latch : s.latch.axi1ffR = w

section RunLoad

variable (rom : Nco.Rom) {s : State} {w : BitVec 32} {ins : ℕ → Input}

/-- A run on harmless words keeps what is on its way harmless. -/
theorem run_pending (hs : Known s) (hpending : ∀ c ∈ pending s.latch, KeepsChain c)
    (hbus : ∀ k, rstBit (busWords ins k) = true ∨ KeepsChain (busWords ins k)) (n : ℕ) :
    Known (run (step rom) s ins n) ∧
      ∀ c ∈ pending (run (step rom) s ins n).latch, KeepsChain c := by
  induction n with
  | zero => exact ⟨hs, hpending⟩
  | succ n ih =>
      exact ⟨known_step rom ih.1 (ins n), pending_keepsChain rom ih.1 ih.2 (hbus n)⟩

/-- The selection of the input loads nothing, in a clock period that may still be one of a
reset. -/
theorem run_inputSel (inputSel : BitVec 16) (hs : Known s) (hc : Consistent (settled s))
    {n : ℕ} (hbus : ∀ k < n, busWords ins k ∈ strobed (setFirWord .inputSel inputSel)) :
    loadPart (settled (run (step rom) s ins n)) = loadPart (settled s) ∧
      ((settled (run (step rom) s ins n)).1.firInputSelR = (settled s).1.firInputSelR ∨
        (settled (run (step rom) s ins n)).1.firInputSelR = inputSel.setWidth 3) ∧
      Known (run (step rom) s ins n) := by
  induction n with
  | zero => exact ⟨rfl, .inl rfl, hs⟩
  | succ n ih =>
      rcases ih fun k hk => hbus k (Nat.lt_succ_of_lt hk) with ⟨hload, hsel, hknown⟩
      have hword : ∃ v, busWords ins n = PdhCmdT.strobe.set v (setFirWord .inputSel inputSel) := by
        rcases List.mem_pair.mp (hbus n (Nat.lt_succ_self n)) with hlow | hhigh
        · exact ⟨0#1, hlow⟩
        · exact ⟨1#1, hhigh⟩
      rcases hword with ⟨v, hword⟩
      have hi : (ins n).rstI = false := by
        rw [Input.rstI, show (ins n).axiFromPsI = _ from hword, rstBit_strobe, rstBit_setFirWord]
      have hclosed := (hc.congr hload).closed
      refine ⟨?_, ?_, known_step rom hknown (ins n)⟩
      · rcases settled_step_cases rom hknown hi with hstay | hexec
        · rw [run_succ, hstay, hload]
        · rw [run_succ, hexec, show (ins n).axiFromPsI = _ from hword,
            (execStaging_inputSel v inputSel hclosed).1, hload]
      · rcases settled_step_cases rom hknown hi with hstay | hexec
        · rw [run_succ, hstay]
          exact hsel
        · rw [run_succ, hexec, show (ins n).axiFromPsI = _ from hword]
          exact .inr (execStaging_inputSel v inputSel hclosed).2

/-- After two cycles on the first write of a load the core is out of reset. -/
theorem live_of_inputSel (inputSel : BitVec 16) (hs : Known s) (hc : Consistent (settled s))
    {n : ℕ} (hn : 2 ≤ n)
    (hbus : ∀ k < n, busWords ins k ∈ strobed (setFirWord .inputSel inputSel)) :
    Live (run (step rom) s ins n) := by
  obtain ⟨d, rfl⟩ := Nat.exists_eq_add_of_le' hn
  have hi : ∀ k < d + 2, (ins k).rstI = false := by
    intro k hk
    rcases List.mem_pair.mp (hbus k hk) with hlow | hhigh
    · rw [Input.rstI, show (ins k).axiFromPsI = _ from hlow, rstBit_strobe, rstBit_setFirWord]
    · rw [Input.rstI, show (ins k).axiFromPsI = _ from hhigh, rstBit_strobe, rstBit_setFirWord]
  have hknown := (run_inputSel rom inputSel hs hc (n := d) fun k hk => hbus k (by omega)).2.2
  exact live_of_two rom hknown (hi d (by omega)) (hi (d + 1) (by omega))

/-- Between requests the words of a load take effect, perhaps but for the selection of the
input. -/
theorem Between.run_load (h : Between s w) (inputSel : BitVec 16) (cs : List (BitVec 16)) {n : ℕ}
    (hbus : CarriesBy (busWords ins) (w :: (firWrites inputSel cs).flatMap strobed) n) :
    ∃ c, loadPart c = loadPart (settled s) ∧
      (c.1.firInputSelR = (settled s).1.firInputSelR ∨ c.1.firInputSelR = inputSel.setWidth 3) ∧
      Loaded cs c (run (step rom) s ins (n + 1)) (busWords ins n) := by
  have hrst : ∀ u ∈ (enabledWrites cs).flatMap strobed, rstBit u = false :=
    rstBit_of_mem_strobed fun u hu =>
      rstBit_of_mem_firWrites inputSel cs u (List.mem_cons_of_mem _ hu)
  have hkeeps := keepsChain_of_mem_strobed (keepsChain_of_mem_firWrites inputSel cs)
  have hall : ∀ k, rstBit (busWords ins k) = true ∨ KeepsChain (busWords ins k) := by
    intro k
    rcases List.mem_cons.mp (hbus.mem k) with hw | hrest
    · rw [hw]
      rcases h.word with ⟨hreset, -⟩ | ⟨-, hkeep, -⟩
      · exact .inl hreset
      · exact .inr hkeep
    · exact .inr (hkeeps _ hrest)
  have hne : (enabledWrites cs).flatMap strobed ≠ [] := List.cons_ne_nil _ _
  rw [firWrites_eq, List.flatMap_cons] at hbus
  -- the word from before, the selection of the input, and the other writes
  have hbus₀ : CarriesBy (busWords ins) ([w] ++ (strobed (setFirWord .inputSel inputSel) ++
      (enabledWrites cs).flatMap strobed)) n := hbus
  rcases hbus₀.split (List.append_ne_nil_of_right_ne_nil _ hne) with
    ⟨k₁, m₁, rfl, -, hfirst, hbus₁⟩
  rcases hbus₁.split hne with ⟨k₂, m₂, rfl, hk₂, hsecond, hbus₂⟩
  rcases h.run_same rom fun k hk => List.mem_singleton.mp (hfirst k hk) with
    ⟨hbetween, hload₁, hsel₁⟩
  rcases run_inputSel rom inputSel hbetween.known hbetween.consistent hsecond with
    ⟨hload₂, hsel₂, -⟩
  have hlive := live_of_inputSel rom inputSel hbetween.known hbetween.consistent hk₂ hsecond
  have hpending := (run_pending rom h.known h.pending hall (k₁ + (k₂ + m₂) + 1)).2
  have hrun : run (step rom) s ins (k₁ + (k₂ + m₂) + 1) =
      run (step rom) (run (step rom) (run (step rom) s ins k₁) (fun j => ins (k₁ + j)) k₂)
        (fun j => ins (k₁ + (k₂ + j))) (m₂ + 1) := by
    rw [show k₁ + (k₂ + m₂) + 1 = k₁ + (k₂ + (m₂ + 1)) by omega, run_add, run_add]
  rw [hrun] at hpending ⊢
  generalize run (step rom) (run (step rom) s ins k₁) (fun j => ins (k₁ + j)) k₂ = s₂
    at hload₂ hsel₂ hlive hpending
  have hins : ∀ j, (ins (k₁ + (k₂ + j))).rstI = false := fun j => hrst _ (hbus₂.mem j)
  have hlast := hbus₂.mem m₂
  refine ⟨settled s₂, hload₂.trans hload₁, hsel₂.imp_left fun hsame => hsame.trans hsel₁,
    run_live rom hlive hins (m₂ + 1), ?_, hpending, hrst _ hlast,
    hkeeps _ (List.mem_append_right (strobed (setFirWord .inputSel inputSel)) hlast), ?_⟩
  · exact (settled_of_carries rom hlive hbus₂ hrst (strobeBit_strobed (enabledWrites cs))).trans
      (foldl_strobed (enabledWrites cs) _)
  · rw [latch_succ rom hlive hins]
    rfl

end RunLoad

/-- A finished load ends between requests. -/
theorem Loaded.between {cs : List (BitVec 16)} {c : Regs × CoeffSet} {s : State} {w : BitVec 32}
    (h : Loaded cs c s w) (hc : Consistent c) : Between s w :=
  ⟨.inr h.live, h.settled_eq ▸ (hc.load cs).1, h.pending,
    .inr ⟨h.rst, h.keeps, .inl ⟨h.live, h.latch⟩⟩⟩

/-! ## The words of the other handlers -/

/-- The trace sends the filter nothing. -/
def Spares (tr : Trace) : Prop :=
  ∀ w ∈ shown Call.sent tr, cmdW w ≠ .setFir

theorem spares_call {c : Call} (h : c.sent = []) : Spec c.run Spares fun _ => True :=
  onlySends_call h

theorem spares_send {raw : BitVec 32} (h : cmdW raw ≠ .setFir) :
    Spec (Call.pdhSendCmd raw).run Spares fun _ => True :=
  onlySends_send h

theorem spares_pure {α : Type} (a : α) : Spec (pure a : Routine α) Spares fun _ => True :=
  onlySends_pure a

theorem spares_bind {α β : Type} {p : Routine α} {f : α → Routine β}
    (hp : Spec p Spares fun _ => True) (hf : ∀ a, Spec (f a) Spares fun _ => True) :
    Spec (p >>= f) Spares fun _ => True :=
  onlySends_bind hp hf

theorem spares_strobe {cmd : BitVec 32} (h : cmdW cmd ≠ .setFir) :
    Spec (pdhStrobeCmd cmd) Spares fun _ => True :=
  onlySends_strobe fun v => by rwa [cmdW_strobe]

/-- A command of another kind, with its answer. -/
theorem spares_execute {cmd : BitVec 32} (h : cmdW cmd ≠ .setFir) :
    Spec (pdhExecuteCmd cmd) Spares fun _ => True :=
  onlySends_execute fun v => by rwa [cmdW_strobe]

/-! ### Command words -/

/-- The command of a word that was filled with another one. -/
theorem cmdW_cmdWord_ne {c : PdhCmdE} (h : c ≠ .setFir) : cmdW (cmdWord c) ≠ .setFir := by
  rw [cmdW_cmdWord]
  cases c with
  | setFir => exact absurd rfl h
  | _ => exact nofun

/-- Data do not make a command one of the filter. -/
theorem cmdW_set_ne {f : BitField 32} (hf : f.lo + f.len ≤ 26) {v : BitVec f.len} {w : BitVec 32}
    (h : cmdW w ≠ .setFir) : cmdW (f.set v w) ≠ .setFir := by
  rwa [cmdW_set hf]

theorem cmdW_checkSignedWord (sel : BitVec 5) : cmdW (checkSignedWord sel) ≠ .setFir :=
  cmdW_set_ne (Nat.le_of_ble_eq_true rfl) (cmdW_cmdWord_ne nofun)

theorem cmdW_setDacWord (sel : BitVec 1) (code : BitVec 14) :
    cmdW (setDacWord sel code) ≠ .setFir :=
  cmdW_set_ne (Nat.le_of_ble_eq_true rfl) (cmdW_set_ne (Nat.le_of_ble_eq_true rfl)
    (cmdW_cmdWord_ne nofun))

theorem cmdW_setRotWord (strobe select : BitVec 1) (payload : BitVec 16) :
    cmdW (setRotWord strobe select payload) ≠ .setFir := by
  rw [setRotWord, cmdW_strobe]
  exact cmdW_set_ne (Nat.le_of_ble_eq_true rfl) (cmdW_set_ne (Nat.le_of_ble_eq_true rfl)
    (cmdW_cmdWord_ne nofun))

theorem cmdW_getFrameWord (decimationCode frameCode : BitVec 32) :
    cmdW (getFrameWord decimationCode frameCode) ≠ .setFir :=
  cmdW_set_ne (Nat.le_of_ble_eq_true rfl) (cmdW_set_ne (Nat.le_of_ble_eq_true rfl)
    (cmdW_cmdWord_ne nofun))

theorem cmdW_configDemodWord (refSel : BitVec 1) (inSel : BitVec 3) (lpfAlpha : BitVec 4) :
    cmdW (configDemodWord refSel inSel lpfAlpha) ≠ .setFir :=
  cmdW_set_ne (Nat.le_of_ble_eq_true rfl) (cmdW_set_ne (Nat.le_of_ble_eq_true rfl)
    (cmdW_set_ne (Nat.le_of_ble_eq_true rfl) (cmdW_cmdWord_ne nofun)))

theorem cmdW_configIoWord (dac1 dac2 pid : BitVec 3) (cmd : BitVec 32) :
    cmdW (configIoWord dac1 dac2 pid cmd) ≠ .setFir := by
  have hcmd : cmdW (PdhCmdT.cmd.set PdhCmdE.configIo.code cmd) = .configIo :=
    congrArg Cmd.ofCode (BitField.get_set PdhCmdT.cmd PdhCmdE.configIo.code cmd)
  refine cmdW_set_ne (Nat.le_of_ble_eq_true rfl) (cmdW_set_ne (Nat.le_of_ble_eq_true rfl)
    (cmdW_set_ne (Nat.le_of_ble_eq_true rfl) ?_))
  rw [hcmd]
  exact nofun

theorem cmdW_setPidWord_ne (sel : PidCoeffSelE) (payload : BitVec 16) :
    cmdW (setPidWord sel payload) ≠ .setFir := by
  rw [cmdW_setPidWord]
  exact nofun

theorem cmdW_setNcoWord_ne (sel : NcoCoeffSelE) (payload : BitVec 16) :
    cmdW (setNcoWord sel payload) ≠ .setFir :=
  cmdW_set_ne (Nat.le_of_ble_eq_true rfl) (cmdW_set_ne (Nat.le_of_ble_eq_true rfl)
    (cmdW_cmdWord_ne nofun))

/-! ### Handlers -/

section Handlers

variable {F : Type} [MixedPrecision F] (ctx : CmdCtx F)

/-- `cmd_set_pid` writes controller registers only. -/
theorem spares_setPid : Spec (cmdSetPid ctx) Spares fun _ => True := by
  have hint : ∀ sel value scale name fail (r : Reply F),
      Spec (setPidInt16 sel value scale name fail r) Spares fun _ => True :=
    fun _ _ _ _ _ _ => spares_bind (spares_execute (cmdW_setPidWord_ne _ _)) fun _ => spares_pure _
  have huint : ∀ sel value name fail (r : Reply F),
      Spec (setPidUint sel value name fail r) Spares fun _ => True :=
    fun _ _ _ _ _ => spares_bind (spares_execute (cmdW_setPidWord_ne _ _)) fun _ => spares_pure _
  refine spares_bind (hint _ _ _ _ _ _) fun _ => ?_
  refine spares_bind (hint _ _ _ _ _ _) fun _ => ?_
  refine spares_bind (hint _ _ _ _ _ _) fun _ => ?_
  refine spares_bind (huint _ _ _ _ _) fun _ => ?_
  refine spares_bind (hint _ _ _ _ _ _) fun _ => ?_
  refine spares_bind (huint _ _ _ _ _) fun _ => ?_
  refine spares_bind (huint _ _ _ _ _) fun _ => ?_
  refine spares_bind (huint _ _ _ _ _) fun _ => ?_
  refine spares_bind (hint _ _ _ _ _ _) fun _ => ?_
  exact spares_bind (hint _ _ _ _ _ _) fun _ => hint _ _ _ _ _ _

/-- `cmd_set_nco` writes oscillator registers only. -/
theorem spares_setNco : Spec (cmdSetNco ctx) Spares fun _ => True := by
  have hword : ∀ sel payload, Spec (pdhExecuteCmd (setNcoWord sel payload)) Spares fun _ => True :=
    fun sel payload => spares_execute (cmdW_setNcoWord_ne sel payload)
  dsimp only [cmdSetNco]
  split_ifs
  · exact spares_pure _
  · refine spares_bind (hword _ _) fun _ => ?_
    refine spares_bind (hword _ _) fun _ => ?_
    refine spares_bind (hword _ _) fun _ => ?_
    refine spares_bind (hword _ _) fun _ => ?_
    refine spares_bind (hword _ _) fun _ => ?_
    exact spares_bind (hword _ _) fun _ => spares_pure _

/-- `cmd_set_rot` writes rotation registers only. -/
theorem spares_setRot : Spec (cmdSetRot ctx) Spares fun _ => True := by
  have hword : ∀ strobe select payload,
      Spec (Call.pdhSendCmd (setRotWord strobe select payload)).run Spares fun _ => True :=
    fun strobe select payload => spares_send (cmdW_setRotWord strobe select payload)
  refine spares_bind (hword _ _ _) fun _ => ?_
  refine spares_bind (hword _ _ _) fun _ => ?_
  refine spares_bind (hword _ _ _) fun _ => ?_
  refine spares_bind (hword _ _ _) fun _ => ?_
  refine spares_bind (spares_call rfl) fun _ => ?_
  exact spares_bind (spares_execute (cmdW_cmdWord_ne nofun)) fun _ => spares_pure _

/-- `cmd_get_frame` sends an idle command and an order. -/
theorem spares_getFrame : Spec (cmdGetFrame ctx) Spares fun _ => True := by
  have hlog : ∀ frameCode (r : Reply F), Spec (logFrame frameCode r) Spares fun _ => True := by
    intro frameCode r
    refine (logs_logFrame frameCode r).mono (fun tr htr w hw => ?_) fun _ _ => trivial
    rcases List.mem_flatMap.mp hw with ⟨⟨c, response⟩, he, hsent⟩
    have hcall := htr _ he
    cases c with
    | pdhSendCmd raw => exact absurd hcall id
    | _ => exact absurd hsent List.not_mem_nil
  rw [cmdGetFrame_eq]
  refine spares_bind ?_ fun cb => hlog _ _
  refine spares_bind (spares_call rfl) fun _ => ?_
  refine spares_bind (spares_strobe (cmdW_cmdWord_ne nofun)) fun _ => ?_
  refine spares_bind (spares_strobe (cmdW_getFrameWord _ _)) fun _ => ?_
  refine spares_bind (spares_call rfl) fun sel => ?_
  refine spares_bind (spares_call rfl) fun cb => ?_
  dsimp only
  split_ifs
  · refine spares_bind (spares_call rfl) fun _ => ?_
    exact spares_bind (spares_call rfl) fun _ => spares_pure _
  · exact spares_pure _

/-- `cmd_sweep_ramp` reads registers, writes a converter and routes. -/
theorem spares_sweepRamp : Spec (cmdSweepRamp ctx) Spares fun _ => True := by
  refine onlySends_sweepRamp ctx (fun v sel => ?_) (fun v sel code => ?_) fun v dac1 dac2 pid => ?_
  · rw [cmdW_strobe]
    exact cmdW_checkSignedWord sel
  · rw [cmdW_strobe]
    exact cmdW_setDacWord sel code
  · rw [cmdW_strobe]
    exact cmdW_configIoWord dac1 dac2 pid 0#32

/-- Only `cmd_set_fir` sends commands to the filter. -/
theorem spares_spec (stack : BitVec 32) {h : Handler} (hfir : h ≠ .setFir) :
    Spec (h.run stack ctx) Spares fun _ => True := by
  cases h with
  | setFir => exact absurd rfl hfir
  | setLed =>
      change Spec (cmdSetLed ctx) Spares _
      dsimp only [cmdSetLed]
      split_ifs
      · exact spares_pure _
      · refine spares_bind (spares_execute ?_) fun _ => spares_pure _
        exact cmdW_set_ne (Nat.le_of_ble_eq_true rfl) (cmdW_cmdWord_ne (by decide))
  | resetFpga =>
      refine spares_bind (spares_send (by decide)) fun _ => ?_
      refine spares_bind (spares_send (by decide)) fun _ => ?_
      exact spares_bind (spares_call rfl) fun _ => spares_pure _
  | setDac => exact spares_bind (spares_execute (cmdW_setDacWord _ _)) fun _ => spares_pure _
  | getAdc =>
      exact spares_bind (spares_execute (cmdW_cmdWord_ne (by decide))) fun _ => spares_pure _
  | checkSigned =>
      exact spares_bind (spares_execute (cmdW_checkSignedWord _)) fun _ => spares_pure _
  | setRot => exact spares_setRot ctx
  | getFrame => exact spares_getFrame ctx
  | testFrame => exact spares_pure _
  | setPid => exact spares_setPid ctx
  | setNco => exact spares_setNco ctx
  | configIo =>
      change Spec (cmdConfigIo stack ctx) Spares _
      dsimp only [cmdConfigIo]
      split_ifs
      · exact spares_pure _
      · exact spares_bind (spares_execute (cmdW_configIoWord _ _ _ _)) fun _ => spares_pure _
  | configDemod =>
      change Spec (cmdConfigDemod ctx) Spares _
      dsimp only [cmdConfigDemod]
      split_ifs
      · exact spares_pure _
      · exact spares_pure _
      · exact spares_bind (spares_execute (cmdW_configDemodWord _ _ _)) fun _ => spares_pure _
  | sweepRamp => exact spares_sweepRamp ctx

end Handlers

/-! ## States between requests -/

/-- The states that a sequence of requests leads to from a reset, with the word that is then on
the bus.  A handler is given any arguments, any contents of the stack and any responses; the bus
goes on showing the last word while the handler has sent nothing yet, and shows each word that
the handler sends for one or more clock periods. -/
inductive Served (F : Type) [MixedPrecision F] (rom : Nco.Rom) : State → BitVec 32 → Prop where
  | reset (s : State) (i : Input) (hrst : i.rstI = true) :
      Served F rom (step rom i s) i.axiFromPsI
  | request {s : State} {w : BitVec 32} (before : Served F rom s w) (h : Handler)
      (stack : BitVec 32) (ctx : CmdCtx F) (tr : Trace) (reply : Reply F)
      (hrun : Performs (h.run stack ctx) tr reply) (ins : ℕ → Input) (n : ℕ)
      (hbus : CarriesBy (busWords ins) (w :: shown Call.sent tr) n) :
      Served F rom (run (step rom) s ins (n + 1)) (busWords ins n)

section Served

variable {F : Type} [MixedPrecision F] (rom : Nco.Rom) {s : State} {w : BitVec 32}
  {ins : ℕ → Input} {n : ℕ}

/-- A request that sends nothing. -/
theorem Between.run_nothing (h : Between s w) (hbus : CarriesBy (busWords ins) [w] n) :
    Between (run (step rom) s ins (n + 1)) (busWords ins n) := by
  have hword : ∀ k, busWords ins k = w := fun k => List.mem_singleton.mp (hbus.mem k)
  rw [hword n]
  exact (h.run_same rom fun k _ => hword k).1

/-- A request that sends the filter nothing. -/
theorem Between.run_spares (h : Between s w) {words : List (BitVec 32)}
    (hwords : ∀ u ∈ words, cmdW u ≠ .setFir) (hbus : CarriesBy (busWords ins) (w :: words) n) :
    Between (run (step rom) s ins (n + 1)) (busWords ins n) := by
  by_cases hne : words = []
  · subst hne
    exact h.run_nothing rom hbus
  · have hbus₀ : CarriesBy (busWords ins) ([w] ++ words) n := hbus
    rcases hbus₀.split hne with ⟨k, m, rfl, -, hfirst, hrest⟩
    have hbetween := (h.run_same rom fun j hj => List.mem_singleton.mp (hfirst j hj)).1
    rw [Nat.add_assoc, run_add]
    exact hbetween.run_other rom (fun j => hwords _ (hrest.mem j)) m

/-- Every request that is served leaves the core between requests. -/
theorem served_between (h : Served F rom s w) : Between s w := by
  induction h with
  | reset s i hrst =>
      have hreset := resetting_of_rst rom s hrst
      refine ⟨.inl hreset, ?_, ?_, .inl ⟨hrst, hreset⟩⟩
      · rw [settled_of_reset hreset.latch hreset.regs]
        exact consistent_reset _
      · intro c hc
        rw [pending_reset hreset.latch, List.mem_singleton] at hc
        exact hc ▸ keepsChain_zero
  | request before h stack ctx tr reply hrun ins n hbus ih =>
      by_cases hfir : h = .setFir
      · subst hfir
        rw [cmdSetFir_emits ctx tr reply hrun, requestWrites] at hbus
        by_cases hok : firArgsCode ctx = .ok
        · rw [if_pos hok] at hbus
          rcases ih.run_load rom _ _ hbus with ⟨c, hload, -, hend⟩
          exact hend.between (ih.consistent.congr hload)
        · rw [if_neg hok] at hbus
          exact ih.run_nothing rom hbus
      · exact ih.run_spares rom ((spares_spec ctx stack hfir tr reply hrun).1) hbus

end Served

end Requests
end PoundDreverHall
