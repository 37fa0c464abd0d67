import PoundDreverHall.Frame.Exclusion

/-!
# Frames - commands and the frame under way

A latched command reaches the configuration registers one edge later, the words
packed for the memory another edge later, and the ready level of the DMA controller
only after the first command.  This file has what a run needs to follow a command
into the frame that is being made.

Main results:

- Theorem {lit}`axiFromPsR_of_latches` and theorem {lit}`regs_of_latches`: the
  command and its registers until the next command.
- Theorem {lit}`packedUnder_of_regs` and theorem {lit}`decimationCodeR_of_capture`:
  frame code and decimation of a captured word.
- Theorem {lit}`finished_of_completes`: what raises the interrupt of a completed
  transfer.
-/

namespace PoundDreverHall

/-! ## One event -/

namespace PdhCore

variable {i : Input} {s : State} (hi : i.rstI = false) (hsync : s.rst.rstSyncR = false)

include hi hsync

/-- The configuration registers execute the latched command. -/
theorem step_regs (rom : Nco.Rom) :
    (step rom i s).regs = Regs.next s.latch.axiFromPsR s.regs := by
  simp [step, posedge, negedge, hi, hsync]

theorem step_axiFromPsR (rom : Nco.Rom) :
    (step rom i s).latch.axiFromPsR = (load s.latch).getD s.latch.axiFromPsR := by
  rw [← nextAxiFromPsW_eq]
  simp [step, posedge, negedge, hi, hsync, Latch.step]

/-- The word packed on an edge. -/
theorem step_dmaDataR (rom : Nco.Rom) :
    ∃ dac, (step rom i s).path.dmaDataR = Path.dmaDataW false i s.regs dac s.path := by
  refine ⟨(negedge i s).dac, ?_⟩
  simp [step, posedge, negedge, hi, hsync, Path.step]

end PdhCore

namespace BramController

variable {P : Params} {i : Input} {s : State P} (hi : i.rstI = false)
  (hsync : s.rst.rstSyncR = false)

include hi hsync

/-- A capture starts with the decimation code found at its start. -/
theorem decimationCodeR_of_start (hidle : s.stateR ≠ .captureData)
    (hstart : (step i s).stateR = .captureData) :
    (step i s).decimationCodeR = i.decimationCodeI := by
  have hst : s.stateR = .idle := by
    cases hcase : s.stateR with
    | idle => rfl
    | captureData => exact absurd hcase hidle
  simp only [step, posedge, hi, hsync, nextStateW, nextDecimationCodeW, hst, Bool.false_eq_true,
    if_false] at hstart ⊢
  split_ifs at hstart ⊢
  rfl

/-- A capture keeps its decimation code. -/
theorem decimationCodeR_of_capturing (hst : s.stateR = .captureData) :
    (step i s).decimationCodeR = s.decimationCodeR := by
  simp [step, posedge, hi, hsync, nextDecimationCodeW, hst]

end BramController

namespace PdhTop

open Clocked

section Step

variable {P : Params} {s : State P} {e : Event}

theorem uPdhCore_step_of_not_pdhEdge (rom : Nco.Rom) (hno : e.NoReset)
    (he : e.isPdhEdge = false) : (step rom e s).uPdhCore = s.uPdhCore := by
  cases e with
  | gpioWrite w =>
      simp only [step, gpioWrite]
      rw [if_neg (ne_true_of_eq_false hno)]
  | fclk0 slave => rfl
  | pdhClk adc => cases he
  | bothClk adc slave => cases he

theorem uBram_step_of_not_pdhEdge (rom : Nco.Rom) (hno : e.NoReset)
    (he : e.isPdhEdge = false) : (step rom e s).uBram = s.uBram := by
  cases e with
  | gpioWrite w =>
      simp only [step, gpioWrite]
      rw [if_neg (ne_true_of_eq_false hno)]
  | fclk0 slave => rfl
  | pdhClk adc => cases he
  | bothClk adc slave => cases he

/-- An edge of {lit}`pdh_clk` is a clock period of the core. -/
theorem uPdhCore_step_of_pdhEdge (rom : Nco.Rom) (he : e.isPdhEdge = true) :
    ∃ adc, (step rom e s).uPdhCore = PdhCore.step rom (coreInput adc s) s.uPdhCore := by
  cases e with
  | gpioWrite w => cases he
  | fclk0 slave => cases he
  | pdhClk adc => exact ⟨adc, rfl⟩
  | bothClk adc slave => exact ⟨adc, rfl⟩

section Live

variable (rom : Nco.Rom) (hrst : PdhCore.rstBit s.axiFromPs = false)
  (hsync : s.uPdhCore.rst.rstSyncR = false) (he : e.isPdhEdge = true)

include hrst hsync he

theorem axiFromPsR_step :
    (step rom e s).uPdhCore.latch.axiFromPsR =
      (PdhCore.load s.uPdhCore.latch).getD s.uPdhCore.latch.axiFromPsR := by
  rcases uPdhCore_step_of_pdhEdge (s := s) rom he with ⟨adc, hcore⟩
  rw [hcore]
  exact PdhCore.step_axiFromPsR (i := coreInput adc s) hrst hsync rom

theorem regs_step :
    (step rom e s).uPdhCore.regs =
      PdhCore.Regs.next s.uPdhCore.latch.axiFromPsR s.uPdhCore.regs := by
  rcases uPdhCore_step_of_pdhEdge (s := s) rom he with ⟨adc, hcore⟩
  rw [hcore]
  exact PdhCore.step_regs (i := coreInput adc s) hrst hsync rom

theorem dmaDataR_step :
    ∃ (i : PdhCore.Input) (dac : PdhCore.DacRegs), (step rom e s).uPdhCore.path.dmaDataR =
      PdhCore.Path.dmaDataW false i s.uPdhCore.regs dac s.uPdhCore.path := by
  rcases uPdhCore_step_of_pdhEdge (s := s) rom he with ⟨adc, hcore⟩
  rcases PdhCore.step_dmaDataR (i := coreInput adc s) hrst hsync rom with ⟨dac, hword⟩
  exact ⟨_, dac, by rw [hcore]; exact hword⟩

end Live

/-- What it does to the registers that see both the commands and the read-out. -/
theorem control_step_of_pdhEdge (rom : Nco.Rom) (hrst : PdhCore.rstBit s.axiFromPs = false)
    (he : e.isPdhEdge = true) :
    ∃ last, (control (step rom e s)).orch = ((control s).pdhEdge last).orch ∧
      (control (step rom e s)).latch = ((control s).pdhEdge last).latch := by
  cases e with
  | gpioWrite w => cases he
  | fclk0 slave => cases he
  | pdhClk adc =>
      refine ⟨BramController.lastAddr s.uBram, ?_⟩
      rw [control_step hrst rom (noReset_pdhClk adc)]
      exact ⟨rfl, rfl⟩
  | bothClk adc slave =>
      have hno : (Event.bothClk adc slave).NoReset := trivial
      refine ⟨BramController.lastAddr s.uBram, ?_⟩
      rw [control_step hrst rom hno]
      exact ⟨rfl, rfl⟩

theorem uBram_step_of_pdhEdge (rom : Nco.Rom) (he : e.isPdhEdge = true) :
    (step rom e s).uBram = BramController.step (bramInput s) s.uBram := by
  cases e with
  | gpioWrite w => cases he
  | fclk0 slave => cases he
  | pdhClk adc => rfl
  | bothClk adc slave => rfl

end Step

/-! ## Moves and edges -/

/-- Only the start and the end of a transfer leave the capture side as it is. -/
theorem captureAt_next {c : Control} {p : Phase} (h : Control.CaptureAt c p)
    (h' : Control.CaptureAt c p.next) : p = .waiting ∨ p = .transferring := by
  cases p <;> simp_all [Control.CaptureAt, Phase.next]

/-- The capture side depends on registers of the domain of {lit}`pdh_clk`. -/
theorem captureAt_control_step {P : Params} {s : State P} {e : Event} (rom : Nco.Rom)
    (hno : e.NoReset) (he : e.isPdhEdge = false) {p : Phase}
    (h : Control.CaptureAt (control s) p) : Control.CaptureAt (control (step rom e s)) p := by
  have hcore := uPdhCore_step_of_not_pdhEdge (s := s) rom hno he
  have hbram := uBram_step_of_not_pdhEdge (s := s) rom hno he
  cases p <;>
    simpa only [Control.CaptureAt, Control.OrderStands, Control.cmd, control, hcore, hbram] using h

section Runs

variable {P : Params} {rom : Nco.Rom} {s₀ : State P} {ins : ℕ → Event}
  (hs : AfterReset rom s₀) (hins : ∀ n, (ins n).NoReset) {m : ℕ → ℕ} (hm : Held m)
  (hat : ∀ n, Control.At (control (run (step rom) s₀ ins n)) (phaseAt (m n)))
  (hleave : ∀ n, m (n + 1) = m n + 1 →
    Control.MayLeave (control (run (step rom) s₀ ins n)) (phaseAt (m n)))

include hat

theorem at_of_mod {n : ℕ} {p : Phase} (h : m n % 9 = p.index) :
    Control.At (control (run (step rom) s₀ ins n)) p := by
  rw [← (phaseAt_eq_iff (m n) p).mpr h]
  exact hat n

include hins

/-- Moves of the capture side are made on edges of {lit}`pdh_clk`. -/
theorem isPdhEdge_of_move {n : ℕ} (hmove : m (n + 1) = m n + 1) (hwait : m n % 9 ≠ 5)
    (htransfer : m n % 9 ≠ 6) : (ins n).isPdhEdge = true := by
  by_contra hedge
  have hbefore := (hat n).capture
  have hafter := (hat (n + 1)).capture
  rw [hmove, phaseAt_succ, run_succ] at hafter
  have hsame := captureAt_control_step rom (hins n) (eq_false_of_ne_true hedge) hbefore
  rcases captureAt_next hsame hafter with h | h <;> rw [phaseAt_eq_iff] at h
  · exact hwait h
  · exact htransfer h

/-! ## The ready level after a command -/

/-- Outside the transfer. -/
def AtRest (i : ℕ) : Prop := i % 9 ≠ 5 ∧ i % 9 ≠ 6 ∧ i % 9 ≠ 7

omit hins in
theorem quiet_of_atRest {n : ℕ} (h : AtRest (m n)) :
    Control.Quiet (control (run (step rom) s₀ ins n)) := by
  have hreadOut := (hat n).readOut
  obtain ⟨h5, h6, h7⟩ := h
  rw [← index_phaseAt] at h5 h6 h7
  cases hphase : phaseAt (m n) <;> rw [hphase] at hreadOut h5 h6 h7 <;>
    first | exact hreadOut | simp [Phase.index] at h5 h6 h7

include hs hm hleave

/-- Coming to rest, the ready level is high everywhere if it was before. -/
theorem readyHigh_succ {n : ℕ}
    (hsync : (run (step rom) s₀ ins n).uPdhCore.rst.rstSyncR = false)
    (h : AtRest (m n) → Control.ReadyHigh (control (run (step rom) s₀ ins (n + 1))))
    (hrest : AtRest (m (n + 1))) :
    Control.ReadyHigh (control (run (step rom) s₀ ins (n + 1))) := by
  by_cases hbefore : AtRest (m n)
  · exact h hbefore
  · -- the edge that completes the transfer
    have hphase : m n % 9 = 7 ∧ m (n + 1) = m n + 1 := by
      unfold AtRest at hbefore hrest
      rcases hm.succ n with hstay | hmove <;> omega
    obtain ⟨hfinished, hmove⟩ := hphase
    have hedge := isPdhEdge_of_move hins hat hmove (by omega) (by omega)
    have hcompletes := hleave n hmove
    rw [(phaseAt_eq_iff (m n) .finished).mpr hfinished] at hcompletes
    obtain ⟨hidle, -, hdips⟩ := (at_of_mod hat (p := .finished) hfinished).readOut
    have hbit := rstBit_run rom (control_afterReset hs).1 hins n
    rcases control_step_of_pdhEdge rom hbit hedge with ⟨last, horch, -⟩
    rw [run_succ, Control.ReadyHigh, horch]
    exact hdips.high hsync hidle hcompletes last

/-- After a command the ready level is high everywhere, outside the transfer. -/
theorem readyHigh_of_latches {t n : ℕ} {w : BitVec 32} (hlatch : Latches rom s₀ ins t w)
    (htn : t < n) (hrest : AtRest (m n)) :
    Control.ReadyHigh (control (run (step rom) s₀ ins n)) := by
  obtain ⟨hedge, hsync, hload⟩ := hlatch
  induction n, htn using Nat.le_induction with
  | base =>
      refine readyHigh_succ hs hins hm hat hleave hsync (fun hbefore => ?_) hrest
      have hquiet := quiet_of_atRest hat hbefore
      -- the word on its way has the strobe, so it is not zero
      have hword : (run (step rom) s₀ ins t).uPdhCore.latch.axi3ffR ≠ 0#32 := by
        intro hzero
        simp [PdhCore.load, PdhCore.Latch.strobeEdgeW, PosedgeDetector.q, hzero,
          PdhCore.strobeBit] at hload
      have hready : (control (run (step rom) s₀ ins t)).orch.dmaReady3ff = true :=
        hquiet.2.2.2.2.2 hword
      have hbit := rstBit_run rom (control_afterReset hs).1 hins t
      rcases control_step_of_pdhEdge rom hbit hedge with ⟨last, horch, -⟩
      rw [run_succ, Control.ReadyHigh, horch]
      exact Control.readyHigh_pdhEdge hsync hquiet hready last
  | succ n htn ih =>
      have hsync' := coreRst_of_le hs hins hat hsync (Nat.le_of_lt htn)
      refine readyHigh_succ hs hins hm hat hleave hsync' (fun hbefore => ?_) hrest
      rw [control_run_succ hs hins]
      exact (ih hbefore).step hsync' (quiet_of_atRest hat hbefore).1 _

/-- After a command only the end of a transfer raises the interrupt of a completed
transfer. -/
theorem finished_of_completes {t n : ℕ} {w : BitVec 32} (hlatch : Latches rom s₀ ins t w)
    (htn : t < n) (h : (run (step rom) s₀ ins n).uPdhCore.orch.dmaReadyEdgeW = true) :
    m n % 9 = 7 := by
  have hprev := ((PosedgeDetector.q_eq_true_iff _ _).mp h).2
  by_contra hphase
  by_cases hrest : AtRest (m n)
  · have hhigh := readyHigh_of_latches hs hins hm hat hleave hlatch htn hrest
    exact Bool.false_ne_true (hprev.symm.trans hhigh.2.2.2)
  · rcases (by unfold AtRest at hrest; omega : m n % 9 = 5 ∨ m n % 9 = 6) with h5 | h6
    · obtain ⟨-, hhigh, -⟩ := (at_of_mod hat (p := .waiting) h5).readOut
      exact Bool.false_ne_true (hprev.symm.trans hhigh.2.2.2)
    · obtain ⟨-, -, hfalls⟩ := (at_of_mod hat (p := .transferring) h6).readOut
      exact Bool.false_ne_true (hfalls.noEdge.symm.trans h)

end Runs

/-! ## The command, its registers and the capture -/

/-- The word in {lit}`dma_data_r` before event {lit}`k` was packed under frame code
{lit}`f`, on the last edge of {lit}`pdh_clk` before. -/
def PackedUnder {P : Params} (rom : Nco.Rom) (s₀ : State P) (ins : ℕ → Event) (f : BitVec 4)
    (k : ℕ) : Prop :=
  ∃ j < k, (ins j).isPdhEdge = true ∧ (∀ i, j < i → i < k → (ins i).isPdhEdge = false) ∧
    (run (step rom) s₀ ins j).uPdhCore.regs.frameCodeR = f ∧
    ∃ (i : PdhCore.Input) (dac : PdhCore.DacRegs),
      (run (step rom) s₀ ins k).uPdhCore.path.dmaDataR =
        PdhCore.Path.dmaDataW false i (run (step rom) s₀ ins j).uPdhCore.regs dac
          (run (step rom) s₀ ins j).uPdhCore.path

section Registers

variable {P : Params} {rom : Nco.Rom} {s₀ : State P} {ins : ℕ → Event}
  (hbit : ∀ n, PdhCore.rstBit (run (step rom) s₀ ins n).axiFromPs = false)
  (hins : ∀ n, (ins n).NoReset) {a b : ℕ}
  (hsync : ∀ n, a ≤ n → (run (step rom) s₀ ins n).uPdhCore.rst.rstSyncR = false)

include hbit hins hsync

/-- A latched word stays until the next one. -/
theorem axiFromPsR_of_latches {w : BitVec 32} (hlatch : Latches rom s₀ ins a w)
    (hnone : ∀ k w', a < k → k < b → ¬Latches rom s₀ ins k w') {n : ℕ} (han : a < n)
    (hnb : n ≤ b) : (run (step rom) s₀ ins n).uPdhCore.latch.axiFromPsR = w := by
  induction n, han using Nat.le_induction with
  | base =>
      obtain ⟨hedge, hrst, hload⟩ := hlatch
      rw [run_succ, axiFromPsR_step rom (hbit a) hrst hedge, hload]
      rfl
  | succ n han ih =>
      have hrst := hsync n (by omega)
      rw [run_succ]
      cases hedge : (ins n).isPdhEdge with
      | false => rw [uPdhCore_step_of_not_pdhEdge rom (hins n) hedge, ih (by omega)]
      | true =>
          rw [axiFromPsR_step rom (hbit n) hrst hedge]
          cases hload : PdhCore.load (run (step rom) s₀ ins n).uPdhCore.latch with
          | none => exact ih (by omega)
          | some w' => exact absurd ⟨hedge, hrst, hload⟩ (hnone n w' (by omega) (by omega))

/-- A frame order is in the registers after one more edge, and stays there. -/
theorem regs_of_latches {w : BitVec 32} (hw : PdhCore.cmdW w = .getFrame)
    (hlatch : ∀ n, a < n → n ≤ b →
      (run (step rom) s₀ ins n).uPdhCore.latch.axiFromPsR = w) {e n : ℕ} (hae : a < e)
    (hedge : (ins e).isPdhEdge = true) (hen : e < n) (hnb : n ≤ b) :
    (run (step rom) s₀ ins n).uPdhCore.regs.frameCodeR = (PdhCore.dataW w).extractLsb' 22 4 ∧
      (run (step rom) s₀ ins n).uPdhCore.regs.dmaDecimationCodeR =
        (PdhCore.dataW w).extractLsb' 0 22 := by
  have hnext : ∀ k, a < k → k < b → (ins k).isPdhEdge = true →
      (run (step rom) s₀ ins (k + 1)).uPdhCore.regs =
        PdhCore.Regs.next w (run (step rom) s₀ ins k).uPdhCore.regs := by
    intro k hak hkb hedge
    rw [run_succ, regs_step rom (hbit k) (hsync k (by omega)) hedge, hlatch k hak (by omega)]
  induction n, hen using Nat.le_induction with
  | base =>
      rw [hnext e hae (by omega) hedge]
      simp [PdhCore.Regs.next, hw]
  | succ n hen ih =>
      cases hedge' : (ins n).isPdhEdge with
      | false =>
          rw [run_succ, uPdhCore_step_of_not_pdhEdge rom (hins n) hedge']
          exact ih (by omega)
      | true =>
          rw [hnext n (by omega) (by omega) hedge']
          simp [PdhCore.Regs.next, hw]

omit hbit hsync in
/-- Between edges of {lit}`pdh_clk` the core stays as it is. -/
theorem uPdhCore_of_no_pdhEdge {j k : ℕ} (hjk : j ≤ k)
    (hnone : ∀ i, j ≤ i → i < k → (ins i).isPdhEdge = false) :
    (run (step rom) s₀ ins k).uPdhCore = (run (step rom) s₀ ins j).uPdhCore := by
  induction k, hjk using Nat.le_induction with
  | base => rfl
  | succ k hjk ih =>
      rw [run_succ, uPdhCore_step_of_not_pdhEdge rom (hins k) (hnone k hjk (Nat.lt_succ_self k))]
      exact ih fun i hji hik => hnone i hji (Nat.lt_succ_of_lt hik)

/-- A word is packed under the frame code that holds on the edge before. -/
theorem packedUnder_of_regs {f : BitVec 4} {c k : ℕ} (hac : a ≤ c) (hck : c < k)
    (hedge : (ins c).isPdhEdge = true)
    (hcode : ∀ j, c ≤ j → j < k → (run (step rom) s₀ ins j).uPdhCore.regs.frameCodeR = f) :
    PackedUnder rom s₀ ins f k := by
  rcases exists_last_high (x := fun n => (ins n).isPdhEdge) hedge hck with
    ⟨j, hcj, hjk, hj, hnone⟩
  have hword := dmaDataR_step rom (hbit j) (hsync j (by omega)) hj
  have hkeep : (run (step rom) s₀ ins k).uPdhCore = (run (step rom) s₀ ins (j + 1)).uPdhCore :=
    uPdhCore_of_no_pdhEdge hins hjk fun i hji hik => hnone i hji hik
  rw [← run_succ (step rom) s₀ ins j] at hword
  exact ⟨j, hjk, hj, hnone, hcode j hcj hjk, by rw [hkeep]; exact hword⟩

omit hsync in
/-- A capture runs with the decimation code the core held at its start. -/
theorem decimationCodeR_of_capture {c k : ℕ}
    (hsync : ∀ n, c ≤ n → (run (step rom) s₀ ins n).uBram.rst.rstSyncR = false)
    (hedge : (ins c).isPdhEdge = true) (hidle : captureLevel rom s₀ ins c = false) (hck : c < k)
    (hbusy : ∀ j, c < j → j ≤ k → captureLevel rom s₀ ins j = true) :
    (run (step rom) s₀ ins k).uBram.decimationCodeR =
      (run (step rom) s₀ ins c).uPdhCore.regs.dmaDecimationCodeR := by
  induction k, hck using Nat.le_induction with
  | base =>
      have hstart := hbusy (c + 1) (Nat.lt_succ_self c) (Nat.le_refl _)
      rw [captureLevel, run_succ, uBram_step_of_pdhEdge rom hedge] at hstart
      rw [run_succ, uBram_step_of_pdhEdge rom hedge]
      exact BramController.decimationCodeR_of_start (hbit c) (hsync c (Nat.le_refl c))
        (ne_of_beq_false hidle) (eq_of_beq hstart)
  | succ k hck ih =>
      have hst := eq_of_beq (hbusy k (by omega) (Nat.le_succ k))
      rw [run_succ, ← ih fun j hcj hjk => hbusy j hcj (by omega)]
      cases hedge' : (ins k).isPdhEdge with
      | false => rw [uBram_step_of_not_pdhEdge rom (hins k) hedge']
      | true =>
          rw [uBram_step_of_pdhEdge rom hedge']
          exact BramController.decimationCodeR_of_capturing (hbit k) (hsync k (by omega)) hst

end Registers

end PdhTop

end PoundDreverHall
