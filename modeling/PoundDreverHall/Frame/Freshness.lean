import PoundDreverHall.Frame.Commands

/-!
# Frames - which frame is announced

{lit}`CMD_IDLE` followed by {lit}`CMD_GET_FRAME` asks for a clean frame.  This file
follows such a request up to the interrupt that announces a frame, and says when the
announced frame is the one asked for.

Main results:

- Theorem {lit}`FrameRequest.announced_clean`: a request that finds the orchestrator
  at rest is answered with its own frame.
- Theorem {lit}`FrameRequest.announced_early`: a request that finds a frame under way
  is answered with that frame.
- Theorem {lit}`clean_frame_iff`: the announced frame is clean if and only if the
  orchestrator was at rest.
-/

namespace PoundDreverHall
namespace PdhTop

open Clocked

/-! ## Requests and answers -/

section Requests

variable {P : Params} (rom : Nco.Rom) (s₀ : State P) (ins : ℕ → Event)

/-- Event {lit}`n` is an edge that raises the interrupt of a completed transfer. -/
def Completes (n : ℕ) : Prop :=
  (ins n).isPdhEdge = true ∧
    (run (step rom) s₀ ins n).uPdhCore.orch.dmaReadyEdgeW = true

/-- {lit}`CMD_IDLE` is latched at {lit}`t₁`, then {lit}`CMD_GET_FRAME` with frame code
{lit}`f` and decimation {lit}`d` at {lit}`t₂`, no other command up to {lit}`t₃`, and
{lit}`t₃` is the next edge that raises the interrupt of a completed transfer. -/
structure FrameRequest (t₁ t₂ t₃ : ℕ) (f : BitVec 4) (d : BitVec 22) : Prop where
  idle : ∃ w, Latches rom s₀ ins t₁ w ∧ PdhCore.cmdW w = .idle
  getFrame : ∃ w, Latches rom s₀ ins t₂ w ∧ PdhCore.cmdW w = .getFrame ∧
    (PdhCore.dataW w).extractLsb' 22 4 = f ∧ (PdhCore.dataW w).extractLsb' 0 22 = d
  idle_lt : t₁ < t₂
  lt_completes : t₂ < t₃
  alone : ∀ k w, t₁ < k → k < t₃ → Latches rom s₀ ins k w → k = t₂
  completes : Completes rom s₀ ins t₃
  next : ∀ k, t₂ < k → k < t₃ → ¬Completes rom s₀ ins k

/-- The capture that starts at {lit}`c` is the last one before {lit}`t`; its words are
the frame that is announced at {lit}`t`. -/
def Announced (c t : ℕ) : Prop :=
  Starts (captureLevel rom s₀ ins) c ∧ c < t ∧
    ∀ j, c < j → j < t → ¬Starts (captureLevel rom s₀ ins) j

/-- The frame captured from {lit}`c` on and announced at {lit}`t₃` is the one ordered
at {lit}`t₂`: captured afterwards, every word packed under frame code {lit}`f`, at
decimation {lit}`d`. -/
structure CleanFrame (c t₂ t₃ : ℕ) (f : BitVec 4) (d : BitVec 22) : Prop where
  after : t₂ < c
  packed : ∀ k, c < k → k < t₃ → (ins k).isPdhEdge = true →
    captureLevel rom s₀ ins k = true → PackedUnder rom s₀ ins f k
  decimated : ∀ k, c < k → k < t₃ → captureLevel rom s₀ ins k = true →
    (run (step rom) s₀ ins k).uBram.decimationCodeR = d

end Requests

/-! ## The announced frame -/

/-- The state of the orchestrator in each phase. -/
def Phase.dmaSt : Phase → PdhCore.DmaSt
  | .armed => .armed
  | .ordered | .enabling | .capturing | .captured => .runBram
  | .waiting | .transferring | .finished => .runAxi
  | .stale => .stale

theorem Control.At.dmaStateR {c : Control} {p : Phase} (h : Control.At c p) :
    c.orch.dmaStateR = p.dmaSt := by
  have hcapture := h.capture
  cases p <;> exact hcapture.1

section Announced

variable {P : Params} {rom : Nco.Rom} {s₀ : State P} {ins : ℕ → Event}
  (hs : AfterReset rom s₀) (hins : ∀ n, (ins n).NoReset) {m : ℕ → ℕ} (hm : Held m)
  (hat : ∀ n, Control.At (control (run (step rom) s₀ ins n)) (phaseAt (m n)))
  (hleave : ∀ n, m (n + 1) = m n + 1 →
    Control.MayLeave (control (run (step rom) s₀ ins n)) (phaseAt (m n)))
  {t₁ t₂ t₃ : ℕ} {f : BitVec 4} {d : BitVec 22}
  (h : FrameRequest rom s₀ ins t₁ t₂ t₃ f d)

include hs hins hat in
/-- A capture starts on the next edge after its enable. -/
theorem captureLevel_of_enabling {n : ℕ} (hphase : m n % 9 = 2)
    (hedge : (ins n).isPdhEdge = true) : captureLevel rom s₀ ins (n + 1) = true := by
  have henabling := at_of_mod hat (p := .enabling) hphase
  have hall : ∀ last, ((control (run (step rom) s₀ ins n)).pdhEdge last).capturing = true :=
    fun last => (Control.captureAt_enabling henabling.sound henabling.capture last).2.2.2.2.2
  have hnext := congrArg Control.capturing (control_run_succ hs hins n)
  cases hevent : ins n with
  | gpioWrite w => simp [hevent, Event.isPdhEdge] at hedge
  | fclk0 slave => simp [hevent, Event.isPdhEdge] at hedge
  | pdhClk adc =>
      rw [ticks, hevent] at hnext
      exact hnext.trans (hall _)
  | bothClk adc slave =>
      rw [ticks, hevent] at hnext
      exact hnext.trans (hall (BramController.lastAddr (run (step rom) s₀ ins n).uBram))

include hat in
/-- The orchestrator is at rest in the first and in the last phase. -/
theorem dmaStateR_atRest_iff (n : ℕ) :
    ((run (step rom) s₀ ins n).uPdhCore.orch.dmaStateR = .armed ∨
        (run (step rom) s₀ ins n).uPdhCore.orch.dmaStateR = .stale) ↔
      m n % 9 = 0 ∨ m n % 9 = 8 := by
  have hstate : (run (step rom) s₀ ins n).uPdhCore.orch.dmaStateR = (phaseAt (m n)).dmaSt :=
    (hat n).dmaStateR
  rw [hstate, ← index_phaseAt]
  cases phaseAt (m n) <;> simp [Phase.dmaSt, Phase.index]

include hm hat in
/-- The frame announced at the end of a transfer is the capture of its round. -/
theorem exists_announced {t : ℕ} (ht : m t % 9 = 7) :
    ∃ c, m c = m t - 5 ∧ m (c + 1) = m c + 1 ∧ Announced rom s₀ ins c t := by
  rcases hm.exists_move (show m t - 5 < m t by omega) with ⟨c, hct, hc, hc'⟩
  refine ⟨c, hc, by omega, (starts_captureLevel_iff hm hat c).mpr (by omega), hct, ?_⟩
  intro j hcj hjt hstart
  obtain ⟨hphase, hmove⟩ := (starts_captureLevel_iff hm hat j).mp hstart
  have hlow : m (c + 1) ≤ m j := hm.monotone hcj
  have hhigh : m j ≤ m t := hm.monotone (Nat.le_of_lt hjt)
  omega

include hs hins hm hat hleave h

theorem FrameRequest.finished : m t₃ % 9 = 7 := by
  rcases h.idle with ⟨w, hlatch, -⟩
  exact finished_of_completes hs hins hm hat hleave hlatch
    (Nat.lt_trans h.idle_lt h.lt_completes) h.completes.2

omit hm hleave in
/-- When the order is latched, {lit}`CMD_IDLE` is executed. -/
theorem FrameRequest.cmd_eq_idle : (run (step rom) s₀ ins t₂).uPdhCore.cmd = .idle := by
  rcases h.idle with ⟨w, hlatch, hw⟩
  have hword := axiFromPsR_of_latches (rstBit_run rom (control_afterReset hs).1 hins) hins
    (fun n hn => coreRst_of_le hs hins hat hlatch.2.1 hn) hlatch
    (fun k w' htk hkt hlatch' => absurd (h.alone k w' htk (hkt.trans h.lt_completes) hlatch')
      (Nat.ne_of_lt hkt)) h.idle_lt le_rfl
  rw [PdhCore.State.cmd, hword, hw]

/-- A request that finds the orchestrator at rest is answered with its own frame. -/
theorem FrameRequest.announced_clean (hrest : m t₂ % 9 = 0 ∨ m t₂ % 9 = 8) :
    ∃ c, Announced rom s₀ ins c t₃ ∧ CleanFrame rom s₀ ins c t₂ t₃ f d := by
  have hfinished := h.finished hs hins hm hat hleave
  have hidle := h.cmd_eq_idle hs hins hat
  have hbit := rstBit_run rom (control_afterReset hs).1 hins
  rcases h.getFrame with ⟨w, hlatch, hw, hf, hd⟩
  have hsync : ∀ n, t₂ ≤ n → (run (step rom) s₀ ins n).uPdhCore.rst.rstSyncR = false :=
    fun n hn => coreRst_of_le hs hins hat hlatch.2.1 hn
  rcases exists_announced hm hat hfinished with ⟨c, hc, hc', hannounced⟩
  have hle : m t₂ ≤ m t₃ := hm.monotone (Nat.le_of_lt h.lt_completes)
  -- the order of the round is taken after the request
  rcases hm.exists_move (show m c - 2 < m c by omega) with ⟨o, hoc, ho, ho'⟩
  have horder := hleave o (by omega)
  rw [(phaseAt_eq_iff (m o) .armed).mpr (by simp only [Phase.index]; omega)] at horder
  have htwo : t₂ < o := by
    rcases Nat.lt_trichotomy t₂ o with hlt | rfl | hgt
    · exact hlt
    · have hcmd : (run (step rom) s₀ ins t₂).uPdhCore.cmd = .getFrame := horder.2
      rw [hidle] at hcmd
      cases hcmd
    · have hlow : m (o + 1) ≤ m t₂ := hm.monotone hgt
      omega
  have hct : c < t₃ := hannounced.2.1
  have hedge_o := isPdhEdge_of_move hins hat (n := o) (by omega) (by omega) (by omega)
  have hedge_c := isPdhEdge_of_move hins hat (n := c) hc' (by omega) (by omega)
  have hregs : ∀ n, o < n → n ≤ t₃ →
      (run (step rom) s₀ ins n).uPdhCore.regs.frameCodeR = f ∧
        (run (step rom) s₀ ins n).uPdhCore.regs.dmaDecimationCodeR = d := by
    intro n hon hnt
    rw [← hf, ← hd]
    refine regs_of_latches hbit hins hsync hw (fun k htk hkt => ?_) htwo hedge_o hon hnt
    exact axiFromPsR_of_latches hbit hins hsync hlatch
      (fun j w' htj hjt hlatch' => absurd (h.alone j w' (by have := h.idle_lt; omega) hjt hlatch')
        (Nat.ne_of_gt htj)) htk hkt
  refine ⟨c, hannounced, by omega, ?_, ?_⟩
  · intro k hck hkt hedge hbusy
    exact packedUnder_of_regs hbit hins hsync (by omega) hck hedge_c
      fun j hcj hjk => (hregs j (by omega) (by omega)).1
  · intro k hck hkt hbusy
    rw [captureLevel_iff hat] at hbusy
    have hhigh : m k ≤ m t₃ := hm.monotone (Nat.le_of_lt hkt)
    have hlow : m (c + 1) ≤ m k := hm.monotone hck
    rw [decimationCodeR_of_capture hbit hins (fun n hn => ?_) hedge_c
      ((captureLevel_eq_false hat c).mpr (by omega)) hck fun j hcj hjk => ?_]
    · exact (hregs c hoc (by omega)).2
    · have hbram := congrArg ResetSync.rstSyncR (hat n).sound.bramRst
      exact hbram.trans (hsync n (by omega))
    · have hlow' : m (c + 1) ≤ m j := hm.monotone hcj
      have hhigh' : m j ≤ m k := hm.monotone hjk
      exact (captureLevel_iff hat j).mpr (by omega)

/-- A request that finds a frame under way is answered with that frame. -/
theorem FrameRequest.announced_early (hbusy : ¬(m t₂ % 9 = 0 ∨ m t₂ % 9 = 8)) :
    ∃ c, Announced rom s₀ ins c t₃ ∧ c ≤ t₂ := by
  have hfinished := h.finished hs hins hm hat hleave
  have hidle := h.cmd_eq_idle hs hins hat
  rcases h.getFrame with ⟨w, hlatch, hw, -, -⟩
  rcases exists_announced hm hat hfinished with ⟨c, hc, hc', hannounced⟩
  refine ⟨c, hannounced, ?_⟩
  have hle : m t₂ ≤ m t₃ := hm.monotone (Nat.le_of_lt h.lt_completes)
  -- the frame under way is the one announced
  have hround : m t₃ / 9 = m t₂ / 9 := by
    by_contra hne
    rcases hm.exists_move (show m t₂ / 9 * 9 + 7 < m t₃ by omega) with ⟨v, hvt, hv, hv'⟩
    rcases hm.exists_move (show m t₂ / 9 * 9 + 8 < m t₃ by omega) with ⟨u, hut, hu, hu'⟩
    have htv : t₂ ≤ v := by
      by_contra hlt
      have hlow : m (v + 1) ≤ m t₂ := hm.monotone (Nat.lt_of_not_le hlt)
      omega
    have hedge := isPdhEdge_of_move hins hat (n := v) (by omega) (by omega) (by omega)
    have hcompletes := hleave v (by omega)
    rw [(phaseAt_eq_iff (m v) .finished).mpr (by simp only [Phase.index]; omega)] at hcompletes
    rcases Nat.eq_or_lt_of_le htv with rfl | hlt
    · -- the interrupt came with the order, which is not left any more
      have hrelease := hleave u (by omega)
      rw [(phaseAt_eq_iff (m u) .stale).mpr (by simp only [Phase.index]; omega)] at hrelease
      have hword := axiFromPsR_of_latches (rstBit_run rom (control_afterReset hs).1 hins) hins
        (fun n hn => coreRst_of_le hs hins hat hlatch.2.1 hn) hlatch
        (fun j w' htj hjt hlatch' => absurd (h.alone j w' (by have := h.idle_lt; omega) hjt hlatch')
          (Nat.ne_of_gt htj)) (hm.move_lt (by omega)) (Nat.le_of_lt hut)
      exact hrelease (by rw [← hw, ← hword]; rfl)
    · exact h.next v hlt hvt ⟨hedge, hcompletes⟩
  have hordered : m t₂ % 9 ≠ 1 := by
    intro hone
    obtain ⟨-, -, -, -, -, -, -, hstands⟩ := (at_of_mod hat (p := .ordered) hone).capture
    have hload := hlatch.2.2
    rcases hstands with hcmd | hprev
    · have hcmd' : (run (step rom) s₀ ins t₂).uPdhCore.cmd = .getFrame := hcmd
      rw [hidle] at hcmd'
      cases hcmd'
    · have hprev' : (run (step rom) s₀ ins t₂).uPdhCore.latch.uStrobeEdgeDetector.prevD = true :=
        hprev
      simp [PdhCore.load, PdhCore.Latch.strobeEdgeW, PosedgeDetector.q, hprev'] at hload
  by_contra hlater
  have hhigh : m t₂ ≤ m c := hm.monotone (by omega)
  have hhigh' : m (t₂ + 1) ≤ m c := hm.monotone (by omega)
  -- one edge before the capture, and the edge comes
  have hstart := captureLevel_of_enabling hs hins hat (n := t₂) (by omega) hlatch.1
  rw [captureLevel_iff hat] at hstart
  have hlow : m t₂ ≤ m (t₂ + 1) := hm.monotone (Nat.le_succ t₂)
  omega

end Announced

/-! ## A request during a transfer -/

/-- Strobe, {lit}`CMD_IDLE`. -/
def idleWord : BitVec 32 := 0x40000000#32

/-- Strobe, {lit}`CMD_GET_FRAME`, frame code 1, decimation 1. -/
def nextFrameWord : BitVec 32 := 0x5C400001#32

/-- The software writes {lit}`w` during a transfer, strobe low and then high; the next
edge latches it. -/
def writeWord (w : BitVec 32) : List Event :=
  [.gpioWrite 0#32, .pdhClk quietAdc, .gpioWrite w, .pdhClk quietAdc, .pdhClk quietAdc,
    .pdhClk quietAdc]

/-- The event latches no word and raises no interrupt of a completed transfer. -/
def silent (c : Control) (e : Event) : Bool :=
  if e.isPdhEdge then (PdhCore.load c.latch).isNone && !c.orch.dmaReadyEdgeW else true

/-- The control registers during a transfer while {lit}`w` is executed. -/
def duringTransferOf (w : BitVec 32) : Control :=
  { settledControl w transferringOrch with transferring := true }

/-- One edge before {lit}`w'` replaces {lit}`w`. -/
def beforeLatch (w w' : BitVec 32) : Control :=
  { duringTransferOf w with
    axiFromPs := w'
    latch :=
      { axi1ffR := w'
        axi2ffR := w'
        axi3ffR := w'
        uStrobeEdgeDetector := .cleared
        axiFromPsR := w } }

/-- One edge before the interrupt of the completed transfer. -/
def beforeInterrupt : Control :=
  settledControl nextFrameWord
    { transferringOrch with
      dmaReady1ff := true
      dmaReady2ff := true
      dmaReady3ff := true }

theorem follow_idleWord :
    (duringTransferOf setLedWord).follow silent (writeWord idleWord) =
      some (beforeLatch setLedWord idleWord) := by
  decide

theorem follow_nextFrameWord :
    (duringTransferOf idleWord).follow silent (writeWord nextFrameWord) =
      some (beforeLatch idleWord nextFrameWord) := by
  decide

theorem follow_interrupt :
    ((duringTransferOf nextFrameWord).fclkEdge true).follow silent
      (List.replicate 3 (.pdhClk quietAdc)) = some beforeInterrupt := by
  decide

/-- From the order for the next frame to the interrupt. -/
theorem reaches_beforeInterrupt (rom : Nco.Rom) {s : State {}}
    (hbit : PdhCore.rstBit s.axiFromPs = false) (hs : control s = duringTransferOf nextFrameWord) :
    ∃ s', Reaches silent rom s s' ∧ control s' = beforeInterrupt := by
  have hfixed : ∀ k, (Control.fclkEdge false)^[k] (duringTransferOf nextFrameWord) =
      duringTransferOf nextFrameWord := Function.iterate_fixed (by decide)
  have hok : ∀ k, silent ((Control.fclkEdge false)^[k] (control s)) (.fclk0 readySlave) = true := by
    intro k
    rw [hs, hfixed]
    decide
  rcases reaches_transfer rom hbit (by decide) (by rw [hs]; rfl) (by rw [hs]; rfl) hok with
    ⟨n, s₁, hreach₁, hbit₁, hcontrol₁⟩
  have hfollow : (control s₁).follow silent (List.replicate 3 (.pdhClk quietAdc)) =
      some beforeInterrupt := by
    rw [hcontrol₁, hs, hfixed]
    exact follow_interrupt
  rcases reaches_of_follow rom hbit₁ hfollow with ⟨s₂, hreach₂, -, hcontrol₂⟩
  exact ⟨s₂, hreach₁.trans hreach₂, hcontrol₂⟩

theorem control_step_pdhClk (rom : Nco.Rom) {s : State {}} {c : Control}
    (hbit : PdhCore.rstBit s.axiFromPs = false)
    (h : (control s).next (.pdhClk quietAdc) = some c) :
    control (step rom (.pdhClk quietAdc) s) = c ∧
      PdhCore.rstBit (step rom (.pdhClk quietAdc) s).axiFromPs = false :=
  ⟨(control_of_next rom hbit h).2, rstBit_step rom (noReset_pdhClk quietAdc) hbit⟩

/-- From reset to the edge on which {lit}`CMD_IDLE` is latched during a transfer, to
the edge on which {lit}`CMD_GET_FRAME` is, and to the interrupt. -/
theorem exists_pieces (rom : Nco.Rom) :
    ∃ (s₀ s₁ s₂ s₃ : State {}), AfterReset rom s₀ ∧ Reaches (fun _ _ => true) rom s₀ s₁ ∧
      control s₁ = beforeLatch setLedWord idleWord ∧
      Reaches silent rom (step rom (.pdhClk quietAdc) s₁) s₂ ∧
      control s₂ = beforeLatch idleWord nextFrameWord ∧
      Reaches silent rom (step rom (.pdhClk quietAdc) s₂) s₃ ∧ control s₃ = beforeInterrupt := by
  have hs₀ := afterReset_releasedState {} rom
  have hfirst : (control (releasedState {} rom)).follow (fun _ _ => true) earlyCommand =
      some beforeFirst := by
    rw [control_releasedState]
    exact follow_earlyCommand
  rcases reaches_of_follow rom (control_afterReset hs₀).1 hfirst with ⟨sa, hreachA, hbitA, hA⟩
  obtain ⟨hB, hbitB⟩ := control_step_pdhClk rom hbitA (by rw [hA]; rfl)
  rcases reaches_duringTransfer rom hbitB hB with ⟨sc, hreachC, hbitC, hC⟩
  have hidle : (control sc).follow silent (writeWord idleWord) =
      some (beforeLatch setLedWord idleWord) := by
    rw [hC]
    exact follow_idleWord
  rcases reaches_of_follow rom hbitC hidle with ⟨s₁, hreach₁, hbit₁, h₁⟩
  obtain ⟨hD, hbitD⟩ := control_step_pdhClk rom hbit₁ (c := duringTransferOf idleWord)
    (by rw [h₁]; decide)
  have horder : (control (step rom (.pdhClk quietAdc) s₁)).follow silent
      (writeWord nextFrameWord) = some (beforeLatch idleWord nextFrameWord) := by
    rw [hD]
    exact follow_nextFrameWord
  rcases reaches_of_follow rom hbitD horder with ⟨s₂, hreach₂, hbit₂, h₂⟩
  obtain ⟨hE, hbitE⟩ := control_step_pdhClk rom hbit₂ (c := duringTransferOf nextFrameWord)
    (by rw [h₂]; decide)
  rcases reaches_beforeInterrupt rom hbitE hE with ⟨s₃, hreach₃, h₃⟩
  have hstart : Reaches (fun _ _ => true) rom sa (step rom (.pdhClk quietAdc) sa) :=
    Leads.single ⟨noReset_pdhClk quietAdc, rfl⟩
  have hany : ∀ ok, ∀ s s' : State {}, Reaches ok rom s s' → Reaches (fun _ _ => true) rom s s' :=
    fun ok s s' h => h.imp fun _ _ hQ => ⟨hQ.1, rfl⟩
  exact ⟨_, s₁, s₂, s₃, hs₀,
    ((hreachA.trans hstart).trans (hany _ _ _ hreachC)).trans (hany _ _ _ hreach₁), h₁,
    hreach₂, h₂, hreach₃, h₃⟩

theorem not_silent_of_latches {rom : Nco.Rom} {s₀ : State {}} {ins : ℕ → Event} {k : ℕ}
    {w : BitVec 32} (h : Latches rom s₀ ins k w) :
    silent (control (run (step rom) s₀ ins k)) (ins k) ≠ true := by
  rcases h with ⟨hedge, -, hload⟩
  simp [silent, hedge, control, hload]

theorem not_silent_of_completes {rom : Nco.Rom} {s₀ : State {}} {ins : ℕ → Event} {k : ℕ}
    (h : Completes rom s₀ ins k) : silent (control (run (step rom) s₀ ins k)) (ins k) ≠ true := by
  rcases h with ⟨hedge, hready⟩
  simp [silent, hedge, control, hready]

/-- A run that requests a frame during the transfer of another one. -/
theorem exists_request_duringTransfer (rom : Nco.Rom) :
    ∃ (s₀ : State {}) (ins : ℕ → Event) (t₁ t₂ t₃ : ℕ), AfterReset rom s₀ ∧
      (∀ n, (ins n).NoReset) ∧ FrameRequest rom s₀ ins t₁ t₂ t₃ 1#4 1#22 ∧
      (run (step rom) s₀ ins t₂).uPdhCore.orch.dmaStateR = .runAxi := by
  rcases exists_pieces rom with ⟨s₀, s₁, s₂, s₃, hs₀, hreach₁, h₁, hreach₂, h₂, hreach₃, h₃⟩
  have he := noReset_pdhClk quietAdc
  rcases Leads.extend s₀ (fun _ => .pdhClk quietAdc) 0 (.pdhClk quietAdc) hreach₁ with
    ⟨insA, t₁, -, -, hpieceA, hrunA, hafterA⟩
  rcases Leads.resume hrunA (hafterA t₁ le_rfl) hreach₂ with
    ⟨insB, t₂, ht₁₂, hsameB, hpieceB, hrunB, hafterB⟩
  rcases Leads.resume hrunB (hafterB t₂ le_rfl) hreach₃ with
    ⟨ins, t₃, ht₂₃, hsameC, hpieceC, hrunC, hafterC⟩
  have hrun₁ : run (step rom) s₀ ins t₁ = s₁ := by
    rw [(hsameC t₁ ht₁₂.le).2, (hsameB t₁ le_rfl).2, hrunA]
  have hrun₂ : run (step rom) s₀ ins t₂ = s₂ := by rw [(hsameC t₂ le_rfl).2, hrunB]
  have hin₁ : ins t₁ = .pdhClk quietAdc := by
    rw [(hsameC t₁ ht₁₂.le).1, (hsameB t₁ le_rfl).1, hafterA t₁ le_rfl]
  have hin₂ : ins t₂ = .pdhClk quietAdc := by rw [(hsameC t₂ le_rfl).1, hafterB t₂ le_rfl]
  have hin₃ : ins t₃ = .pdhClk quietAdc := hafterC t₃ le_rfl
  have hsilent : ∀ k, t₁ < k → k < t₃ → k ≠ t₂ → (ins k).NoReset ∧
      silent (control (run (step rom) s₀ ins k)) (ins k) = true := by
    intro k htk hkt hne
    rcases Nat.lt_or_gt_of_ne hne with hlt | hgt
    · rw [(hsameC k hlt.le).2, (hsameC k hlt.le).1]
      exact hpieceB k htk hlt
    · exact hpieceC k hgt hkt
  refine ⟨s₀, ins, t₁, t₂, t₃, hs₀, ?_, ⟨?_, ?_, ht₁₂, ht₂₃, ?_, ?_, ?_⟩, ?_⟩
  · intro n
    rcases Nat.lt_or_ge n t₁ with hlt | hge
    · rw [(hsameC n (by omega)).1, (hsameB n hlt.le).1]
      exact (hpieceA n (Nat.zero_le n) hlt).1
    · rcases Nat.lt_or_ge n t₃ with hlt₃ | hge₃
      · by_cases h₁ : n = t₁
        · rw [h₁, hin₁]
          exact he
        · by_cases h₂ : n = t₂
          · rw [h₂, hin₂]
            exact he
          · exact (hsilent n (by omega) hlt₃ h₂).1
      · rw [hafterC n hge₃]
        exact he
  · have hload : PdhCore.load (control s₁).latch = some idleWord := by
      rw [h₁]
      decide
    have hrst : (control s₁).coreRst.rstSyncR = false := by rw [h₁]; rfl
    exact ⟨idleWord, ⟨by rw [hin₁]; rfl, by rw [hrun₁]; exact hrst, by rw [hrun₁]; exact hload⟩,
      by decide⟩
  · have hload : PdhCore.load (control s₂).latch = some nextFrameWord := by
      rw [h₂]
      decide
    have hrst : (control s₂).coreRst.rstSyncR = false := by rw [h₂]; rfl
    exact ⟨nextFrameWord,
      ⟨by rw [hin₂]; rfl, by rw [hrun₂]; exact hrst, by rw [hrun₂]; exact hload⟩,
      by decide, by decide, by decide⟩
  · intro k w htk hkt hlatch
    by_contra hne
    exact not_silent_of_latches hlatch (hsilent k htk hkt hne).2
  · have hready : (control s₃).orch.dmaReadyEdgeW = true := by
      rw [h₃]
      decide
    exact ⟨by rw [hin₃]; rfl, by rw [hrunC]; exact hready⟩
  · intro k htk hkt hcomplete
    exact not_silent_of_completes hcomplete (hsilent k (by omega) hkt (by omega)).2
  · have hst : (control s₂).orch.dmaStateR = .runAxi := by rw [h₂]; rfl
    rw [hrun₂]
    exact hst

/-- After {lit}`CMD_IDLE` and {lit}`CMD_GET_FRAME` the frame announced next is the one
ordered, captured after the order and all of it under its frame code and decimation,
if and only if the orchestrator was armed or stale when the order was latched. -/
theorem clean_frame_iff (P : Params) (rom : Nco.Rom) (s₀ : State P) (ins : ℕ → Event)
    (hs : AfterReset rom s₀) (hins : ∀ n, (ins n).NoReset) (t₁ t₂ t₃ : ℕ) (f : BitVec 4)
    (d : BitVec 22) (h : FrameRequest rom s₀ ins t₁ t₂ t₃ f d) :
    ∃ c, Announced rom s₀ ins c t₃ ∧
      (CleanFrame rom s₀ ins c t₂ t₃ f d ↔
        (run (step rom) s₀ ins t₂).uPdhCore.orch.dmaStateR = .armed ∨
          (run (step rom) s₀ ins t₂).uPdhCore.orch.dmaStateR = .stale) := by
  rcases exists_moves hs hins with ⟨m, hm, hat, hleave⟩
  rw [dmaStateR_atRest_iff hat]
  by_cases hrest : m t₂ % 9 = 0 ∨ m t₂ % 9 = 8
  · rcases h.announced_clean hs hins hm hat hleave hrest with ⟨c, hannounced, hclean⟩
    exact ⟨c, hannounced, fun _ => hrest, fun _ => hclean⟩
  · rcases h.announced_early hs hins hm hat hleave hrest with ⟨c, hannounced, hearly⟩
    exact ⟨c, hannounced, fun hclean => absurd hclean.after (Nat.not_lt.mpr hearly),
      fun h => absurd h hrest⟩

/-- The equivalence for a request during a transfer. -/
theorem clean_frame_iff_duringTransfer :
    ∃ (s₀ : State {}) (ins : ℕ → Event) (t₁ t₂ t₃ : ℕ),
      FrameRequest (fun _ => 0#16) s₀ ins t₁ t₂ t₃ 1#4 1#22 ∧
      ∃ c, Announced (fun _ => 0#16) s₀ ins c t₃ ∧
        (CleanFrame (fun _ => 0#16) s₀ ins c t₂ t₃ 1#4 1#22 ↔
          (run (step fun _ => 0#16) s₀ ins t₂).uPdhCore.orch.dmaStateR = .armed ∨
            (run (step fun _ => 0#16) s₀ ins t₂).uPdhCore.orch.dmaStateR = .stale) := by
  rcases exists_request_duringTransfer (fun _ => 0#16) with
    ⟨s₀, ins, t₁, t₂, t₃, hs, hins, hrequest, -⟩
  exact ⟨s₀, ins, t₁, t₂, t₃, hrequest,
    clean_frame_iff {} (fun _ => 0#16) s₀ ins hs hins t₁ t₂ t₃ 1#4 1#22 hrequest⟩

/-- A request during a transfer is answered with the frame of that transfer, which was
captured before the request. -/
theorem request_duringTransfer_stale :
    ∃ (s₀ : State {}) (ins : ℕ → Event) (t₁ t₂ t₃ : ℕ), AfterReset (fun _ => 0#16) s₀ ∧
      (∀ n, (ins n).NoReset) ∧ FrameRequest (fun _ => 0#16) s₀ ins t₁ t₂ t₃ 1#4 1#22 ∧
      ∃ c, Announced (fun _ => 0#16) s₀ ins c t₃ ∧ c ≤ t₂ ∧
        ¬CleanFrame (fun _ => 0#16) s₀ ins c t₂ t₃ 1#4 1#22 := by
  rcases exists_request_duringTransfer (fun _ => 0#16) with
    ⟨s₀, ins, t₁, t₂, t₃, hs, hins, hrequest, hbusy⟩
  rcases exists_moves hs hins with ⟨m, hm, hat, hleave⟩
  have hphase : ¬(m t₂ % 9 = 0 ∨ m t₂ % 9 = 8) := by
    rw [← dmaStateR_atRest_iff hat, hbusy]
    simp
  rcases hrequest.announced_early hs hins hm hat hleave hphase with ⟨c, hannounced, hearly⟩
  exact ⟨s₀, ins, t₁, t₂, t₃, hs, hins, hrequest, c, hannounced, hearly,
    fun hclean => absurd hclean.after (Nat.not_lt.mpr hearly)⟩

end PdhTop

end PoundDreverHall
