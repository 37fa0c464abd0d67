import PoundDreverHall.Frame.Workload

/-!
# Frames - clocks that keep pace

A level that goes from one clock to the other is lost if it changes back before the other clock
ticks.  The enable level of the DMA controller is low for as long as a capture takes, and its ready
level for as long as a transfer takes.  If neither clock gets far ahead of the other, both have been
seen when a later phase needs it, so that every phase can end.

Main results:

- Definition {lit}`Primed`: what each phase needs for the later ones to end.
- Theorem {lit}`Primed.step`: one event keeps it.
-/

namespace PoundDreverHall
namespace PdhTop

open Clocked

/-! ## Levels are not missed -/

section Primed

variable {P : Params}

/-- What is needed of a phase for the later ones to end.  The decimation is at most {lit}`d`.  There
have been {lit}`p` edges of {lit}`pdh_clk` since the last one of {lit}`fclk0`, and {lit}`f` of
{lit}`fclk0` since the last one of {lit}`pdh_clk`. -/
def Primed (N d p f : ℕ) (s : State P) : Phase → Prop
  | .armed | .ordered | .enabling => (control s).orch.dmaEnableR = false
  | .capturing =>
      (control s).orch.dmaEnableR = false ∧
        ((control s).lag = 0 ∨ s.uBram.addrR.toNat + N * (control s).lag ≤ 4 * N + p) ∧
        s.uBram.countR.toNat < BramController.period s.uBram.decimationCodeR ∧
        BramController.period s.uBram.decimationCodeR ≤ d
  | .captured => (control s).EnableLow ∧ (control s).EdgePending
  | .waiting => (control s).EnableLow ∨ (control s).EnableClimbs
  | .transferring =>
      (control s).orch.dmaReady1ff = false ∨
        DmaController.transferEdges P.dma ≤ DmaController.edgesLeft P.dma s.uDma + f
  | .finished => ¬(control s).ReadyHigh
  | .stale => True

variable {s : State P} {e : Event} (rom : Nco.Rom) (hrst : PdhCore.rstBit s.axiFromPs = false)
  (hno : e.NoReset) {N d p f p' f' : ℕ}

/-- The edges of one clock since the last one of the other. -/
def since (near far : Bool) (w : ℕ) : ℕ :=
  if far then 0 else if near then w + 1 else w

theorem bramRst_released {c : Control} (hc : Control.Sound c)
    (hst : c.orch.dmaStateR ≠ .armed) : c.bramRst = .released := by
  have hsync := hc.coreRst_of_ne_armed hst
  have hpipe : c.coreRst.rstPipe1R = false := by
    by_contra hpipe
    rw [hc.corePipe (by simpa using hpipe)] at hsync
    cases hsync
  rw [hc.bramRst]
  cases hcore : c.coreRst with
  | mk sync pipe =>
      rw [hcore] at hsync hpipe
      cases hsync
      cases hpipe
      rfl

include hrst hno

/-- While the orchestrator is not in the transfer, the enable level stays low. -/
theorem dmaEnableR_step (hst : (control s).orch.dmaStateR ≠ .runAxi)
    (hlow : (control s).orch.dmaEnableR = false) :
    (control (step rom e s)).orch.dmaEnableR = false := by
  rw [control_step hrst rom hno]
  exact Control.dmaEnableR_step hst hlow _

omit hrst in
/-- A capture starts at an edge of {lit}`pdh_clk`. -/
theorem capturing_start (hat : (control s).At .enabling)
    (hat' : (control (step rom e s)).At .capturing) :
    e.isPdhEdge = true ∧ s.uBram.stateR ≠ .captureData ∧
      (BramController.step (bramInput s) s.uBram).stateR = .captureData := by
  have hidle : s.uBram.stateR ≠ .captureData := by
    have hidle : (control s).capturing = false := hat.capture.2.2.2.2.2.2
    simpa [control] using hidle
  have hstart : (step rom e s).uBram.stateR = .captureData := by
    have hstart : (control (step rom e s)).capturing = true := hat'.capture.2.2.2.2.2
    simpa [control] using hstart
  have he : e.isPdhEdge = true := by
    by_contra he
    rw [uBram_step_of_not_pdhEdge rom hno (eq_false_of_ne_true he)] at hstart
    exact hidle hstart
  rw [uBram_step_of_pdhEdge rom he] at hstart
  exact ⟨he, hidle, hstart⟩

theorem primed_capturing_start (hd : BramController.period (bramInput s).decimationCodeI ≤ d)
    (hat : (control s).At .enabling) (hlow : (control s).orch.dmaEnableR = false)
    (hat' : (control (step rom e s)).At .capturing) :
    Primed N d p f (step rom e s) .capturing := by
  have hst : (control s).orch.dmaStateR = .runBram := hat.capture.1
  obtain ⟨he, hidle, hstart⟩ := capturing_start rom hno hat hat'
  have hreleased := bramRst_released hat.sound (by simp [hst])
  rcases BramController.step_start (congrArg ResetSync.rstSyncR hreleased) hrst hidle hstart with
    ⟨haddr, hcount, hcode⟩
  have hlag := Control.lag_le hat'.sound
  refine ⟨dmaEnableR_step rom hrst hno (by simp [hst]) hlow, .inr ?_, ?_, ?_⟩
  · rw [uBram_step_of_pdhEdge rom he, haddr]
    have hmul := Nat.mul_le_mul_left N hlag
    simp only [BitVec.ofNat_eq_ofNat, BitVec.toNat_ofNat, Nat.zero_mod]
    omega
  · rw [uBram_step_of_pdhEdge rom he, hcount]
    exact BramController.period_pos _
  · rw [uBram_step_of_pdhEdge rom he, hcode]
    exact hd

/-- What an edge of {lit}`fclk0` does to the read-out side. -/
theorem readOut_of_fclkEdge (he : e.isFclkEdge = true) :
    ∃ done, (control (step rom e s)).lag = ((control s).fclkEdge done).lag ∧
      (control (step rom e s)).transferring = ((control s).fclkEdge done).transferring ∧
      (control (step rom e s)).enableLeft = ((control s).fclkEdge done).enableLeft := by
  rw [control_step hrst rom hno]
  cases e with
  | gpioWrite w => cases he
  | pdhClk adc => cases he
  | fclk0 slave => exact ⟨lastResponse slave s, rfl, rfl, rfl⟩
  | bothClk adc slave => exact ⟨lastResponse slave s, rfl, rfl, rfl⟩

theorem readOut_of_not_fclkEdge (he : e.isFclkEdge = false) :
    (control (step rom e s)).lag = (control s).lag ∧
      (control (step rom e s)).enableLeft = (control s).enableLeft := by
  rw [control_step hrst rom hno]
  cases e with
  | gpioWrite w => exact ⟨rfl, rfl⟩
  | pdhClk adc => exact ⟨rfl, rfl⟩
  | fclk0 slave => cases he
  | bothClk adc slave => cases he

/-- A low enable level on its way. -/
theorem lag_step (hc : (control s).Sound) (hfalls : (control s).EnableFalls)
    (hlow : (control s).orch.dmaEnableR = false) :
    (control (step rom e s)).lag =
      if e.isFclkEdge then (control s).lag - 1 else (control s).lag := by
  cases he : e.isFclkEdge with
  | true =>
      obtain ⟨done, hlag, -⟩ := readOut_of_fclkEdge (s := s) rom hrst hno he
      rw [hlag, if_pos rfl]
      exact Control.lag_fclkEdge hc hfalls hlow done
  | false => exact (readOut_of_not_fclkEdge rom hrst hno he).1

/-- One event of a capture. -/
theorem uBram_step_capturing (hdepth : P.bram.depth = 2 ^ P.bram.aw)
    (hat : (control s).At .capturing) (hat' : (control (step rom e s)).At .capturing)
    (hcount : s.uBram.countR.toNat < BramController.period s.uBram.decimationCodeR) :
    (step rom e s).uBram.addrR.toNat ≤ s.uBram.addrR.toNat + e.isPdhEdge.toNat ∧
      (step rom e s).uBram.countR.toNat <
        BramController.period (step rom e s).uBram.decimationCodeR ∧
      (step rom e s).uBram.decimationCodeR = s.uBram.decimationCodeR ∧
      BramController.cyclesLeft (step rom e s).uBram + e.isPdhEdge.toNat =
        BramController.cyclesLeft s.uBram := by
  cases he : e.isPdhEdge with
  | false =>
      rw [uBram_step_of_not_pdhEdge rom hno he]
      exact ⟨le_rfl, hcount, rfl, rfl⟩
  | true =>
      have hst : s.uBram.stateR = .captureData := by
        have hbusy : (control s).capturing = true := hat.capture.2.2.2.2.2
        simpa [control] using hbusy
      have hreleased : s.uBram.rst = .released :=
        bramRst_released hat.sound (by simp [hat.capture.1])
      have hbram := uBram_step_of_pdhEdge (s := s) rom he
      have hlast : BramController.lastAddr s.uBram = false := by
        have hbusy : (step rom e s).uBram.stateR = .captureData := by
          have hbusy : (control (step rom e s)).capturing = true := hat'.capture.2.2.2.2.2
          simpa [control] using hbusy
        rw [hbram] at hbusy
        by_contra hlast
        simp only [Bool.not_eq_false] at hlast
        simp [BramController.step, BramController.posedge, bramInput, hrst, hreleased,
          ResetSync.released, BramController.nextStateW, hst, hlast] at hbusy
      have hrst' : (bramInput s).rstI = false := hrst
      obtain ⟨-, haddr⟩ := BramController.toNat_nextAddrW hdepth hst hlast
      rw [hbram]
      refine ⟨?_, BramController.countR_step hreleased hrst' hst hlast hcount,
        by rw [BramController.step_capturing hreleased hrst' hst hlast],
        BramController.cyclesLeft_step hdepth hreleased hrst' hst hlast hcount⟩
      rw [BramController.step_capturing hreleased hrst' hst hlast]
      simp only [haddr, Bool.toNat_true]
      split_ifs <;> omega

theorem primed_capturing_step (hdepth : P.bram.depth = 2 ^ P.bram.aw) (hp : p < N)
    (hat : (control s).At .capturing) (h : Primed N d p f s .capturing)
    (hat' : (control (step rom e s)).At .capturing) :
    Primed N d (since e.isPdhEdge e.isFclkEdge p) f (step rom e s) .capturing := by
  obtain ⟨hlow, hlag, hcount, hperiod⟩ := h
  have hst : (control s).orch.dmaStateR = .runBram := hat.capture.1
  obtain ⟨haddr, hcount', hcode, -⟩ := uBram_step_capturing rom hrst hno hdepth hat hat' hcount
  refine ⟨dmaEnableR_step rom hrst hno (by simp [hst]) hlow, ?_, hcount', hcode ▸ hperiod⟩
  rw [lag_step rom hrst hno hat.sound hat.readOut.2.1 hlow]
  rcases hlag with hzero | hroom
  · left
    rw [hzero]
    simp
  · cases hfclk : e.isFclkEdge with
    | false =>
        right
        cases hpdh : e.isPdhEdge <;> simp only [since, hpdh, Bool.toNat_false, Bool.toNat_true,
          Bool.false_eq_true, if_false, if_true] at haddr ⊢ <;> omega
    | true =>
        -- the edge brings the low level on, and the count of edges starts again
        by_cases hone : (control s).lag = 0
        · left
          simp [hone]
        · right
          have hsplit : (control s).lag = (control s).lag - 1 + 1 := by omega
          rw [hsplit, Nat.mul_succ] at hroom
          have hpdh := Bool.toNat_le e.isPdhEdge
          simp only [since, if_true]
          omega

/-- The end of a capture: the low enable level has had the time to get everywhere. -/
theorem primed_captured_start (hdepth : P.bram.depth = 2 ^ P.bram.aw) (hN : 4 * N < 2 ^ P.bram.aw)
    (hp : p < N) (hat : (control s).At .capturing) (h : Primed N d p f s .capturing)
    (hat' : (control (step rom e s)).At .captured) : Primed N d p' f' (step rom e s) .captured := by
  obtain ⟨hlow, hlag, -⟩ := h
  have hst : (control s).orch.dmaStateR = .runBram := hat.capture.1
  have hbusy : (control s).capturing = true := hat.capture.2.2.2.2.2
  have hidle' : (control (step rom e s)).capturing = false := hat'.capture.2.2.2
  have he : e.isPdhEdge = true := by
    by_contra he
    simp only [control, uBram_step_of_not_pdhEdge rom hno (eq_false_of_ne_true he)] at hbusy hidle'
    rw [hbusy] at hidle'
    cases hidle'
  have hsync := hat.sound.coreRst_of_ne_armed (by simp [hst])
  have hreleased : s.uBram.rst = .released := bramRst_released hat.sound (by simp [hst])
  have hlast : s.uBram.addrR.toNat = P.bram.depth - 1 := by
    have hst' : s.uBram.stateR = .captureData := by simpa [control] using hbusy
    by_contra hlast
    simp [control, uBram_step_of_pdhEdge rom he, BramController.step, BramController.posedge,
      bramInput, hrst, hreleased, ResetSync.released, BramController.nextStateW, hst',
      BramController.lastAddr, hlast] at hidle'
  have hzero : (control s).lag = 0 := by
    rcases hlag with hzero | hroom
    · exact hzero
    · by_contra hpos
      have hmul := Nat.mul_le_mul_left N (Nat.one_le_iff_ne_zero.mpr hpos)
      omega
  rcases control_step_of_pdhEdge rom hrst he with ⟨last, horch, -⟩
  refine ⟨?_, .inr (.inl ?_)⟩
  · rw [control_step hrst rom hno]
    exact Control.EnableLow.step hat.sound ⟨hlow, hzero⟩ (by simp [hst]) _
  · rw [horch]
    simp [Control.pdhEdge, PdhCore.Orchestrator.step, hsync, hbusy]

theorem primed_captured_step (hat : (control s).At .captured) (h : Primed N d p f s .captured) :
    Primed N d p f (step rom e s) .captured := by
  obtain ⟨hlow, hpending⟩ := h
  have hst : (control s).orch.dmaStateR = .runBram := hat.capture.1
  rw [Primed, control_step hrst rom hno]
  exact ⟨hlow.step hat.sound (by simp [hst]) _,
    hpending.step hst hat.sound hat.capture.2.2.2 _⟩

theorem primed_waiting_step (hat : (control s).At .waiting) (h : Primed N d p f s .waiting)
    (hat' : (control (step rom e s)).At .waiting) : Primed N d p f (step rom e s) .waiting := by
  have hidle' := hat'.readOut.1
  rw [control_step hrst rom hno] at hidle'
  rw [Primed, control_step hrst rom hno]
  exact Control.enable_step_waiting hat.sound hat.capture.1 h hat.readOut.1 _ hidle'

omit hrst hno in
theorem dmaRst_of_waiting (hat : (control s).At .waiting) (h : Primed N d p f s .waiting) :
    (control s).dmaRst = .released := by
  rcases h with ⟨-, hlag⟩ | ⟨-, hreleased, -⟩
  · simp only [Control.lag, Nat.add_eq_zero_iff, Bool.toNat_eq_zero] at hlag
    exact Control.dmaRst_eq hat.sound hlag.1.1.1.1.2
  · exact hreleased

omit hrst hno in
theorem dmaRst_of_transferring (hat : (control s).At .transferring) :
    (control s).dmaRst = .released := by
  apply Control.dmaRst_eq hat.sound
  by_contra hsync
  have hidle := (hat.sound.dmaReset (by simpa using hsync)).2.2.2.2
  rw [hat.readOut.1] at hidle
  cases hidle

/-- The start of a transfer. -/
theorem primed_transferring_start (hat : (control s).At .waiting) (h : Primed N d p f s .waiting)
    (hat' : (control (step rom e s)).At .transferring) :
    Primed N d p f (step rom e s) .transferring := by
  obtain ⟨-, hedges⟩ := edgesLeft_start rom hrst (dmaRst_of_waiting hat h) hat.readOut.1 hno
    hat'.readOut.1
  right
  omega

/-- An edge of {lit}`pdh_clk` during a transfer sees the low ready level. -/
theorem dmaReady1ff_step (hat : (control s).At .transferring)
    (h : e.isPdhEdge = true ∨ (control s).orch.dmaReady1ff = false) :
    (control (step rom e s)).orch.dmaReady1ff = false := by
  have hst : (control s).orch.dmaStateR = .runAxi := hat.capture.1
  have hsync := Control.coreRst_runAxi hat.sound hst
  rcases h with he | hlow
  · rcases control_step_of_pdhEdge (s := s) rom hrst he with ⟨last, horch, -⟩
    rw [horch]
    simp [Control.pdhEdge, PdhCore.Orchestrator.step, hsync, hat.readOut.1]
  · rw [control_step hrst rom hno]
    exact Control.dmaReady1ff_step hsync hat.readOut.1 hlow _

/-- The ready level is low, or there have been as many edges as have been made of the transfer. -/
theorem primed_transferring_step (hP : P.dma.finalWriteAddr.toNat + 128 < 2 ^ 32)
    (hat : (control s).At .transferring) (h : Primed N d p f s .transferring)
    (hat' : (control (step rom e s)).At .transferring) :
    Primed N d p (since e.isFclkEdge e.isPdhEdge f) (step rom e s) .transferring := by
  cases he : e.isPdhEdge with
  | true => exact .inl (dmaReady1ff_step rom hrst hno hat (.inl he))
  | false =>
      rcases h with hlow | hedges
      · exact .inl (dmaReady1ff_step rom hrst hno hat (.inr hlow))
      · right
        cases hfclk : e.isFclkEdge with
        | false =>
            rw [uDma_step_of_not_fclkEdge rom hno hfclk]
            simpa [since] using hedges
        | true =>
            have hstep := edgesLeft_step rom hrst (dmaRst_of_transferring hat) hP hfclk
              hat.readOut.1 hat'.readOut.1
            simp only [since, Bool.false_eq_true, if_false, if_true]
            omega

/-- The end of a transfer: the low ready level has been seen. -/
theorem primed_finished_start (hf : f < 17) (hat : (control s).At .transferring)
    (h : Primed N d p f s .transferring) (hat' : (control (step rom e s)).At .finished) :
    Primed N d p' f' (step rom e s) .finished := by
  have hlow : (control (step rom e s)).orch.dmaReady1ff = false := by
    cases he : e.isPdhEdge with
    | true => exact dmaReady1ff_step rom hrst hno hat (.inl he)
    | false =>
        rcases h with hlow | hedges
        · exact dmaReady1ff_step rom hrst hno hat (.inr hlow)
        · have hbusy := hat.readOut.1
          have hidle' := hat'.readOut.1
          have hfclk : e.isFclkEdge = true := by
            by_contra hfclk
            simp only [control,
              uDma_step_of_not_fclkEdge rom hno (eq_false_of_ne_true hfclk)] at hbusy hidle'
            rw [hbusy] at hidle'
            cases hidle'
          have hone := edgesLeft_of_last rom hrst (dmaRst_of_transferring hat) hfclk hbusy hidle'
          simp only [DmaController.transferEdges] at hedges
          omega
  rintro ⟨hhigh, -⟩
  rw [hlow] at hhigh
  cases hhigh

/-- Until the edge of the ready level the low level is on its way. -/
theorem primed_finished_step (hat : (control s).At .finished) (h : Primed N d p f s .finished)
    (hat' : (control (step rom e s)).At .finished) : Primed N d p f (step rom e s) .finished := by
  have hst : (control s).orch.dmaStateR = .runAxi := hat.capture.1
  have hsync := Control.coreRst_runAxi hat.sound hst
  cases he : e.isPdhEdge with
  | false =>
      have hcore := uPdhCore_step_of_not_pdhEdge (s := s) rom hno he
      simpa only [Primed, Control.ReadyHigh, control, hcore] using h
  | true =>
      rcases control_step_of_pdhEdge (s := s) rom hrst he with ⟨last, horch, -⟩
      have hedge : (control s).orch.dmaReadyEdgeW = false := by
        by_contra hedge
        have hst' : (control (step rom e s)).orch.dmaStateR = .runAxi := hat'.capture.1
        rw [horch] at hst'
        simp [Control.pdhEdge, PdhCore.Orchestrator.step, hsync,
          PdhCore.Orchestrator.nextDmaStateW, hst, eq_true_of_ne_false hedge] at hst'
      rw [Primed, control_step hrst rom hno]
      exact Control.not_readyHigh_step hsync hedge h _

/-- The orchestrator is armed again with a low enable level. -/
theorem primed_armed_start (hat : (control s).At .stale)
    (hat' : (control (step rom e s)).At .armed) : Primed N d p f (step rom e s) .armed := by
  have hst : (control s).orch.dmaStateR = .stale := hat.capture.1
  have hst' : (control (step rom e s)).orch.dmaStateR = .armed := hat'.capture.1
  have hsync := hat.sound.coreRst_of_ne_armed (by simp [hst])
  cases he : e.isPdhEdge with
  | false =>
      have hcore := uPdhCore_step_of_not_pdhEdge (s := s) rom hno he
      simp only [control, hcore] at hst hst'
      rw [hst] at hst'
      cases hst'
  | true =>
      rcases control_step_of_pdhEdge (s := s) rom hrst he with ⟨last, horch, -⟩
      rw [Primed, horch]
      simp [Control.pdhEdge, PdhCore.Orchestrator.step, hsync,
        PdhCore.Orchestrator.nextDmaEnableW, hst]

/-- One event, if neither clock has got far ahead of the other. -/
theorem Primed.step (hdepth : P.bram.depth = 2 ^ P.bram.aw)
    (hP : P.dma.finalWriteAddr.toNat + 128 < 2 ^ 32) (hN : 4 * N < 2 ^ P.bram.aw) (hp : p < N)
    (hf : f < 17) (hd : (control s).orch.dmaStateR = .runBram →
      BramController.period (bramInput s).decimationCodeI ≤ d)
    {q : Phase} (h : Primed N d p f s q) (hat : (control s).At q) {q' : Phase}
    (hq' : q' = q ∨ q' = q.next) (hat' : (control (PdhTop.step rom e s)).At q') :
    Primed N d (since e.isPdhEdge e.isFclkEdge p) (since e.isFclkEdge e.isPdhEdge f)
      (PdhTop.step rom e s) q' := by
  have hlow : (control s).orch.dmaStateR ≠ .runAxi → (control s).orch.dmaEnableR = false →
      (control (PdhTop.step rom e s)).orch.dmaEnableR = false := dmaEnableR_step rom hrst hno
  cases q with
  | armed =>
      rcases hq' with rfl | rfl <;> exact hlow (by simp [hat.capture.1]) h
  | ordered =>
      rcases hq' with rfl | rfl <;> exact hlow (by simp [hat.capture.1]) h
  | enabling =>
      rcases hq' with rfl | rfl
      · exact hlow (by simp [hat.capture.1]) h
      · exact primed_capturing_start rom hrst hno (hd hat.capture.1) hat h hat'
  | capturing =>
      rcases hq' with rfl | rfl
      · exact primed_capturing_step rom hrst hno hdepth hp hat h hat'
      · exact primed_captured_start rom hrst hno hdepth hN hp hat h hat'
  | captured =>
      have hnext := primed_captured_step rom hrst hno hat h
      rcases hq' with rfl | rfl
      · exact hnext
      · exact .inl hnext.1
  | waiting =>
      rcases hq' with rfl | rfl
      · exact primed_waiting_step rom hrst hno hat h hat'
      · exact primed_transferring_start rom hrst hno hat h hat'
  | transferring =>
      rcases hq' with rfl | rfl
      · exact primed_transferring_step rom hrst hno hP hat h hat'
      · exact primed_finished_start rom hrst hno hf hat h hat'
  | finished =>
      rcases hq' with rfl | rfl
      · exact primed_finished_step rom hrst hno hat h hat'
      · trivial
  | stale =>
      rcases hq' with rfl | rfl
      · trivial
      · exact primed_armed_start rom hrst hno hat hat'

end Primed

end PdhTop
end PoundDreverHall
