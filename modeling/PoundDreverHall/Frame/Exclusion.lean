import PoundDreverHall.Decoder.CommandStream
import PoundDreverHall.Frame.Cycle
import PoundDreverHall.Frame.Progress

/-!
# Frames - capture and read-out exclude each other

The moves of the frame cycle are counted, so captures, transfers and orders are
located by the value of the counter, and what the cycle puts first happened
first.

Main results:

- Theorem {lit}`capture_readOut_exclusion`: no transfer runs during a capture,
  every transfer follows a complete capture of its own, and the order of one
  capture and the start of the next are separated by another command.
- Theorem {lit}`captures_separated_only_by_getFrame`: the starts of two captures
  need not be.
-/

namespace PoundDreverHall
namespace PdhTop

open Clocked

/-! ## Observations of a run -/

section Observations

variable {P : Params} (rom : Nco.Rom) (s₀ : State P) (ins : ℕ → Event)

/-- The BRAM controller is in {lit}`ST_CAPTURE_DATA`. -/
def captureLevel (n : ℕ) : Bool :=
  (run (step rom) s₀ ins n).uBram.stateR == .captureData

/-- The DMA controller is outside {lit}`ST_IDLE`. -/
def transferLevel (n : ℕ) : Bool :=
  (run (step rom) s₀ ins n).uDma.stateR != .idle

/-- Event {lit}`n` is the edge on which the orchestrator takes an order for a
frame. -/
def Orders (n : ℕ) : Prop :=
  (run (step rom) s₀ ins n).uPdhCore.orch.dmaStateR = .armed ∧
    (run (step rom) s₀ ins (n + 1)).uPdhCore.orch.dmaStateR = .runBram

/-- Event {lit}`n` is an edge that latches the word {lit}`w`. -/
def Latches (n : ℕ) (w : BitVec 32) : Prop :=
  (ins n).isPdhEdge = true ∧ (run (step rom) s₀ ins n).uPdhCore.rst.rstSyncR = false ∧
    PdhCore.load (run (step rom) s₀ ins n).uPdhCore.latch = some w

end Observations

/-- A level starts to be high with event {lit}`n`. -/
def Starts (x : ℕ → Bool) (n : ℕ) : Prop :=
  x n = false ∧ x (n + 1) = true

/-- A level ends to be high with event {lit}`n`. -/
def Ends (x : ℕ → Bool) (n : ℕ) : Prop :=
  x n = true ∧ x (n + 1) = false

section Counter

variable {x : ℕ → Bool} {f : ℕ → ℕ} (hf : ∀ n, f (n + 1) = f n ∨ f (n + 1) = f n + 1) {k : ℕ}

include hf

/-- A level that is high in one phase starts with the move to this phase. -/
theorem starts_iff_move (hk : k < 8) (hx : ∀ n, x n = true ↔ f n % 9 = k + 1) (n : ℕ) :
    Starts x n ↔ f n % 9 = k ∧ f (n + 1) = f n + 1 := by
  rw [Starts, ← Bool.not_eq_true, hx, hx]
  rcases hf n with hstay | hmove <;> omega

/-- It ends with the move out of it. -/
theorem ends_iff_move (hx : ∀ n, x n = true ↔ f n % 9 = k) (n : ℕ) :
    Ends x n ↔ f n % 9 = k ∧ f (n + 1) = f n + 1 := by
  rw [Ends, ← Bool.not_eq_true, hx, hx]
  rcases hf n with hstay | hmove <;> omega

end Counter

/-! ## Levels by phase -/

/-- A capture runs in one phase. -/
theorem Control.At.capturing_iff {c : Control} {p : Phase} (h : Control.At c p) :
    c.capturing = true ↔ p = .capturing := by
  have hcapture := h.capture
  cases p <;> simp_all [Control.CaptureAt]

/-- So does a transfer. -/
theorem Control.At.transferring_iff {c : Control} {p : Phase} (h : Control.At c p) :
    c.transferring = true ↔ p = .transferring := by
  have hreadOut := h.readOut
  cases p <;> simp_all [Control.ReadOutAt, Control.Quiet]

section Runs

variable {P : Params} {rom : Nco.Rom} {s₀ : State P} {ins : ℕ → Event}

section Counted

variable {m : ℕ → ℕ} (hm : Held m)
  (hat : ∀ n, Control.At (control (run (step rom) s₀ ins n)) (phaseAt (m n)))

include hat

/-- A capture runs in every ninth move, the fourth of each cycle. -/
theorem captureLevel_iff (n : ℕ) : captureLevel rom s₀ ins n = true ↔ m n % 9 = 3 :=
  (hat n).capturing_iff.trans (phaseAt_eq_iff _ _)

/-- A transfer runs in the seventh. -/
theorem transferLevel_iff (n : ℕ) : transferLevel rom s₀ ins n = true ↔ m n % 9 = 6 :=
  (hat n).transferring_iff.trans (phaseAt_eq_iff _ _)

theorem captureLevel_eq_false (n : ℕ) : captureLevel rom s₀ ins n = false ↔ m n % 9 ≠ 3 := by
  rw [← Bool.not_eq_true, captureLevel_iff hat]

theorem transferLevel_eq_false (n : ℕ) : transferLevel rom s₀ ins n = false ↔ m n % 9 ≠ 6 := by
  rw [← Bool.not_eq_true, transferLevel_iff hat]

include hm

/-- A capture starts with the move from the third phase to the fourth. -/
theorem starts_captureLevel_iff (n : ℕ) :
    Starts (captureLevel rom s₀ ins) n ↔ m n % 9 = 2 ∧ m (n + 1) = m n + 1 :=
  starts_iff_move hm.succ (by decide) (captureLevel_iff hat) n

/-- A capture ends with the move that follows. -/
theorem ends_captureLevel_iff (n : ℕ) :
    Ends (captureLevel rom s₀ ins) n ↔ m n % 9 = 3 ∧ m (n + 1) = m n + 1 :=
  ends_iff_move hm.succ (captureLevel_iff hat) n

/-- A transfer starts with the move that enters its phase. -/
theorem starts_transferLevel_iff (n : ℕ) :
    Starts (transferLevel rom s₀ ins) n ↔ m n % 9 = 5 ∧ m (n + 1) = m n + 1 :=
  starts_iff_move hm.succ (by decide) (transferLevel_iff hat) n

/-- A transfer is preceded by a capture of its own. -/
theorem capture_before_transfer {t : ℕ} (ht : Starts (transferLevel rom s₀ ins) t) :
    ∃ c d, Starts (captureLevel rom s₀ ins) c ∧ Ends (captureLevel rom s₀ ins) d ∧
      c < d ∧ d < t ∧ (∀ k, c < k → k ≤ d → captureLevel rom s₀ ins k = true) ∧
      ∀ k, c ≤ k → k ≤ t → transferLevel rom s₀ ins k = false := by
  obtain ⟨hphase, -⟩ := (starts_transferLevel_iff hm hat t).mp ht
  rcases hm.exists_move (show m t - 3 < m t by omega) with ⟨c, hct, hc, hc'⟩
  rcases hm.exists_move (show m t - 2 < m t by omega) with ⟨d, hdt, hd, hd'⟩
  have hcd : c < d := hm.move_lt (by omega)
  refine ⟨c, d, ?_, ?_, hcd, hdt, ?_, ?_⟩
  · exact (starts_captureLevel_iff hm hat c).mpr (by omega)
  · exact (ends_captureLevel_iff hm hat d).mpr (by omega)
  · intro k hck hkd
    have hlow : m (c + 1) ≤ m k := hm.monotone hck
    have hhigh : m k ≤ m d := hm.monotone hkd
    exact (captureLevel_iff hat k).mpr (by omega)
  · intro k hck hkt
    have hlow : m c ≤ m k := hm.monotone hck
    have hhigh : m k ≤ m t := hm.monotone hkt
    exact (transferLevel_eq_false hat k).mpr (by omega)

end Counted

/-! ## Commands between captures -/

/-- Outside reset the executed command changes only on an edge that loads a word. -/
theorem load_of_cmd_step {s : State P} (hrst : PdhCore.rstBit s.axiFromPs = false)
    (rom : Nco.Rom) {e : Event} (he : e.NoReset) (hsync : s.uPdhCore.rst.rstSyncR = false)
    (hcmd : (step rom e s).uPdhCore.cmd ≠ s.uPdhCore.cmd) :
    e.isPdhEdge = true ∧ ∃ w, PdhCore.load s.uPdhCore.latch = some w ∧
      PdhCore.cmdW w = (step rom e s).uPdhCore.cmd := by
  have hlatch : (step rom e s).uPdhCore.latch = ((control s).step (tick s e)).latch :=
    congrArg Control.latch (control_step hrst rom he)
  unfold PdhCore.State.cmd at hcmd ⊢
  rw [hlatch] at hcmd ⊢
  have hedge : ∀ last, PdhCore.cmdW ((control s).pdhEdge last).latch.axiFromPsR ≠
      PdhCore.cmdW s.uPdhCore.latch.axiFromPsR →
      ∃ w, PdhCore.load s.uPdhCore.latch = some w ∧
        PdhCore.cmdW w = PdhCore.cmdW ((control s).pdhEdge last).latch.axiFromPsR := by
    intro last
    simp only [Control.pdhEdge, control, hsync, PdhCore.Latch.step, PdhCore.nextAxiFromPsW_eq,
      Bool.false_eq_true, if_false]
    cases PdhCore.load s.uPdhCore.latch with
    | none => exact fun h => absurd rfl h
    | some w => exact fun _ => ⟨w, rfl, rfl⟩
  cases e with
  | gpioWrite w => exact absurd rfl hcmd
  | fclk0 slave => exact absurd rfl hcmd
  | pdhClk adc => exact ⟨rfl, hedge _ hcmd⟩
  | bothClk adc slave => exact ⟨rfl, hedge (BramController.lastAddr s.uBram) hcmd⟩

section Commands

variable (hs : AfterReset rom s₀) (hins : ∀ n, (ins n).NoReset)

include hs hins

/-- One more event of a run, for the control registers. -/
theorem control_run_succ (n : ℕ) :
    control (run (step rom) s₀ ins (n + 1)) =
      (control (run (step rom) s₀ ins n)).step (ticks rom s₀ ins n) :=
  control_step (rstBit_run rom (control_afterReset hs).1 hins n) rom (hins n)

/-- Outside reset the executed command changes only when a word is latched. -/
theorem exists_latches {n : ℕ} (hsync : (run (step rom) s₀ ins n).uPdhCore.rst.rstSyncR = false)
    (hcmd : (run (step rom) s₀ ins (n + 1)).uPdhCore.cmd ≠
      (run (step rom) s₀ ins n).uPdhCore.cmd) :
    ∃ w, Latches rom s₀ ins n w ∧
      PdhCore.cmdW w = (run (step rom) s₀ ins (n + 1)).uPdhCore.cmd := by
  have hbit := rstBit_run rom (control_afterReset hs).1 hins n
  rw [run_succ] at hcmd ⊢
  rcases load_of_cmd_step hbit rom (hins n) hsync hcmd with ⟨hedge, w, hload, hw⟩
  exact ⟨w, ⟨hedge, hsync, hload⟩, hw⟩

/-- Once the core has left reset it stays out of reset. -/
theorem coreRst_of_le {m : ℕ → ℕ}
    (hat : ∀ n, Control.At (control (run (step rom) s₀ ins n)) (phaseAt (m n))) {o k : ℕ}
    (ho : (run (step rom) s₀ ins o).uPdhCore.rst.rstSyncR = false) (hok : o ≤ k) :
    (run (step rom) s₀ ins k).uPdhCore.rst.rstSyncR = false := by
  induction k, hok using Nat.le_induction with
  | base => exact ho
  | succ k hok ih =>
      have hpipe : (run (step rom) s₀ ins k).uPdhCore.rst.rstPipe1R = false := by
        by_contra hpipe
        have hsync := (hat k).sound.corePipe (eq_true_of_ne_false hpipe)
        exact Bool.false_ne_true (ih.symm.trans hsync)
      have hnext := congrArg Control.coreRst (control_run_succ hs hins k)
      cases hevent : ins k <;> rw [ticks, hevent] at hnext <;>
        simp_all [control, tick, Control.step, Control.pdhEdge, Control.fclkEdge]

/-- A command that replaces another one was latched in between. -/
theorem exists_latches_between {m : ℕ → ℕ}
    (hat : ∀ n, Control.At (control (run (step rom) s₀ ins n)) (phaseAt (m n))) {o v : ℕ}
    (ho : (run (step rom) s₀ ins o).uPdhCore.rst.rstSyncR = false) (hov : o ≤ v)
    (hbefore : (run (step rom) s₀ ins o).uPdhCore.cmd = .getFrame)
    (hafter : (run (step rom) s₀ ins v).uPdhCore.cmd ≠ .getFrame) :
    ∃ k w, o ≤ k ∧ k < v ∧ Latches rom s₀ ins k w ∧ PdhCore.cmdW w ≠ .getFrame := by
  induction v, hov using Nat.le_induction with
  | base => exact absurd hbefore hafter
  | succ v hov ih =>
      by_cases hcmd : (run (step rom) s₀ ins v).uPdhCore.cmd = .getFrame
      · have hsync := coreRst_of_le hs hins hat ho hov
        rcases exists_latches hs hins hsync (by rw [hcmd]; exact hafter) with ⟨w, hlatch, hw⟩
        exact ⟨v, w, hov, Nat.lt_succ_self v, hlatch, by rw [hw]; exact hafter⟩
      · rcases ih hcmd with ⟨k, w, hok, hkv, hlatch, hw⟩
        exact ⟨k, w, hok, Nat.lt_succ_of_lt hkv, hlatch, hw⟩

end Commands

end Runs

/-! ## A command latched too early -/

/-- An order for a frame: strobe, {lit}`CMD_GET_FRAME`, frame code 0, decimation 1. -/
def getFrameWord : BitVec 32 := 0x5C000001#32

/-- Another command: strobe, {lit}`CMD_SET_LED`. -/
def setLedWord : BitVec 32 := 0x44000000#32

/-- From reset to the edge before a capture: the order is followed at once by
another command, which is latched while the capture enable rises. -/
def earlyCommand : List Event :=
  [.pdhClk quietAdc, .pdhClk quietAdc, .gpioWrite getFrameWord, .pdhClk quietAdc,
    .gpioWrite 0#32, .pdhClk quietAdc, .gpioWrite setLedWord, .pdhClk quietAdc,
    .pdhClk quietAdc, .pdhClk quietAdc, .pdhClk quietAdc]

/-- From a finished capture to a running transfer. -/
def startTransfer : List Event :=
  List.replicate 6 (.pdhClk quietAdc) ++ List.replicate 6 (.fclk0 readySlave) ++
    List.replicate 5 (.pdhClk quietAdc)

/-- From a finished transfer to the edge before the next capture. -/
def orderAgain : List Event :=
  List.replicate 5 (.pdhClk quietAdc) ++ [.gpioWrite 0#32, .pdhClk quietAdc,
    .gpioWrite getFrameWord] ++ List.replicate 6 (.pdhClk quietAdc)

/-- The event latches nothing but {lit}`CMD_GET_FRAME`. -/
def latchesOnlyGetFrame (c : Control) (e : Event) : Bool :=
  if e.isPdhEdge then (PdhCore.load c.latch).all fun w => PdhCore.cmdW w == .getFrame else true

/-- The control registers of a core that executes {lit}`w`, with nothing new on
the bus. -/
def settledControl (w : BitVec 32) (orch : PdhCore.Orchestrator) : Control where
  axiFromPs := w
  coreRst := .released
  latch :=
    { axi1ffR := w
      axi2ffR := w
      axi3ffR := w
      uStrobeEdgeDetector := { prevD := true }
      axiFromPsR := w }
  orch := orch
  bramRst := .released
  bramEdge := .cleared
  capturing := false
  dmaRst := .released
  enable1ff := true
  enable2ff := true
  enable3ff := true
  dmaEdge := { prevD := true }
  transferring := false

/-- The orchestrator one edge before a capture. -/
def enablingOrch : PdhCore.Orchestrator where
  dmaReady1ff := true
  dmaReady2ff := true
  dmaReady3ff := true
  uDmaEdgeDetector := { prevD := true }
  bramReadyR := true
  uBramEdgeDetector := { prevD := true }
  bramEdgeAcquiredR := false
  dmaEnableR := false
  bramEnableR := true
  dmaStateR := .runBram

/-- The orchestrator during a transfer. -/
def transferringOrch : PdhCore.Orchestrator where
  dmaReady1ff := false
  dmaReady2ff := false
  dmaReady3ff := false
  uDmaEdgeDetector := .cleared
  bramReadyR := true
  uBramEdgeDetector := { prevD := true }
  bramEdgeAcquiredR := false
  dmaEnableR := true
  bramEnableR := false
  dmaStateR := .runAxi

/-- One edge before the first capture, with the DMA controller still in reset. -/
def beforeFirst : Control :=
  { settledControl setLedWord enablingOrch with
    dmaRst := .asserted
    enable1ff := false
    enable2ff := false
    enable3ff := false
    dmaEdge := .cleared }

/-- During the transfer. -/
def duringTransfer : Control :=
  { settledControl setLedWord transferringOrch with transferring := true }

/-- One edge before the second capture. -/
def beforeSecond : Control := settledControl getFrameWord enablingOrch

theorem follow_earlyCommand :
    (Control.released 0#32).follow (fun _ _ => true) earlyCommand = some beforeFirst := by
  decide

/-- The capture of the first frame waits for its last address. -/
theorem iterate_capture (n : ℕ) :
    (Control.pdhEdge false)^[n + 2] (beforeFirst.pdhEdge false) =
      (Control.pdhEdge false)^[2] (beforeFirst.pdhEdge false) := by
  rw [Function.iterate_add_apply]
  exact Function.iterate_fixed (by decide) n

theorem follow_startTransfer (n : ℕ) :
    (((Control.pdhEdge false)^[n] (beforeFirst.pdhEdge false)).pdhEdge true).follow
      latchesOnlyGetFrame startTransfer = some duringTransfer := by
  rcases n with _ | _ | n
  · decide
  · decide
  · rw [iterate_capture]
    decide

/-- The transfer of the first frame waits for its last response. -/
theorem iterate_transfer (n : ℕ) :
    (Control.fclkEdge false)^[n] duringTransfer = duringTransfer :=
  Function.iterate_fixed (by decide) n

theorem follow_orderAgain :
    (duringTransfer.fclkEdge true).follow latchesOnlyGetFrame orderAgain = some beforeSecond := by
  decide

section Schedule

variable (rom : Nco.Rom) {s : State {}} (hbit : PdhCore.rstBit s.axiFromPs = false)

include hbit

/-- From the first edge of a capture to a running transfer. -/
theorem reaches_duringTransfer (hs : control s = beforeFirst.pdhEdge false) :
    ∃ s', Reaches latchesOnlyGetFrame rom s s' ∧ PdhCore.rstBit s'.axiFromPs = false ∧
      control s' = duringTransfer := by
  have hok : ∀ k, latchesOnlyGetFrame ((Control.pdhEdge false)^[k] (control s))
      (.pdhClk quietAdc) = true := by
    intro k
    rw [hs]
    rcases k with _ | _ | k
    · decide
    · decide
    · rw [iterate_capture]
      decide
  rcases reaches_capture rom hbit rfl (by rw [hs]; rfl) (by rw [hs]; rfl) hok with
    ⟨n, s₁, hreach₁, hbit₁, hcontrol₁⟩
  have hfollow : (control s₁).follow latchesOnlyGetFrame startTransfer = some duringTransfer := by
    rw [hcontrol₁, hs]
    exact follow_startTransfer n
  rcases reaches_of_follow rom hbit₁ hfollow with ⟨s₂, hreach₂, hbit₂, hcontrol₂⟩
  exact ⟨s₂, hreach₁.trans hreach₂, hbit₂, hcontrol₂⟩

/-- From a running transfer to the edge before the next capture. -/
theorem reaches_beforeSecond (hs : control s = duringTransfer) :
    ∃ s', Reaches latchesOnlyGetFrame rom s s' ∧ PdhCore.rstBit s'.axiFromPs = false ∧
      control s' = beforeSecond := by
  have hok : ∀ k, latchesOnlyGetFrame ((Control.fclkEdge false)^[k] (control s))
      (.fclk0 readySlave) = true := by
    intro k
    rw [hs, iterate_transfer]
    decide
  rcases reaches_transfer rom hbit (by decide) (by rw [hs]; rfl) (by rw [hs]; rfl) hok with
    ⟨n, s₁, hreach₁, hbit₁, hcontrol₁⟩
  have hfollow : (control s₁).follow latchesOnlyGetFrame orderAgain = some beforeSecond := by
    rw [hcontrol₁, hs, iterate_transfer]
    exact follow_orderAgain
  rcases reaches_of_follow rom hbit₁ hfollow with ⟨s₂, hreach₂, hbit₂, hcontrol₂⟩
  exact ⟨s₂, hreach₁.trans hreach₂, hbit₂, hcontrol₂⟩

end Schedule

/-! ## Exclusion -/

/-- Capture and read-out exclude each other in a run. -/
structure Exclusive {P : Params} (rom : Nco.Rom) (s₀ : State P) (ins : ℕ → Event) : Prop where
  /-- The DMA controller is in {lit}`ST_IDLE` while the BRAM controller is in
  {lit}`ST_CAPTURE_DATA`. -/
  apart : ∀ n, captureLevel rom s₀ ins n = true → transferLevel rom s₀ ins n = false
  /-- Before a transfer starts there was a complete capture, and no transfer ran
  since that capture started. -/
  preceded : ∀ t, Starts (transferLevel rom s₀ ins) t →
    ∃ c d, Starts (captureLevel rom s₀ ins) c ∧ Ends (captureLevel rom s₀ ins) d ∧
      c < d ∧ d < t ∧ (∀ k, c < k → k ≤ d → captureLevel rom s₀ ins k = true) ∧
      ∀ k, c ≤ k → k ≤ t → transferLevel rom s₀ ins k = false
  /-- From the order that led to a capture up to the start of the next capture, a
  command other than {lit}`CMD_GET_FRAME` is latched. -/
  separated : ∀ t u, t < u → Starts (captureLevel rom s₀ ins) t →
    Starts (captureLevel rom s₀ ins) u →
    ∃ o, Orders rom s₀ ins o ∧ o < t ∧
      (∀ j, o < j → j ≤ t →
        (run (step rom) s₀ ins j).uPdhCore.orch.dmaStateR = .runBram ∧
          captureLevel rom s₀ ins j = false) ∧
      ∃ k w, o ≤ k ∧ k < u ∧ Latches rom s₀ ins k w ∧ PdhCore.cmdW w ≠ .getFrame

/-- Capture and read-out exclude each other in every run after a reset that spans
edges of both clocks, for every stream of commands, every slave and every
interleaving of the edges. -/
theorem capture_readOut_exclusion (P : Params) (rom : Nco.Rom) (s₀ : State P) (ins : ℕ → Event)
    (hs : AfterReset rom s₀) (hins : ∀ n, (ins n).NoReset) : Exclusive rom s₀ ins := by
  rcases exists_moves hs hins with ⟨m, hm, hat, hleave⟩
  refine ⟨?_, fun t ht => capture_before_transfer hm hat ht, ?_⟩
  · intro n hcapture
    rw [captureLevel_iff hat] at hcapture
    exact (transferLevel_eq_false hat n).mpr (by omega)
  · intro t u htu ht hu
    obtain ⟨hphase, hmove⟩ := (starts_captureLevel_iff hm hat t).mp ht
    obtain ⟨hphase', -⟩ := (starts_captureLevel_iff hm hat u).mp hu
    have hlater : m (t + 1) ≤ m u := hm.monotone htu
    -- the order of the first capture, and the release that follows it
    rcases hm.exists_move (show m t - 2 < m t by omega) with ⟨o, hot, ho, ho'⟩
    rcases hm.exists_move (show m t + 6 < m u by omega) with ⟨v, hvu, hv, hv'⟩
    have hov : o < v := hm.move_lt (by omega)
    have hphaseAt : ∀ n p, m n % 9 = p.index → phaseAt (m n) = p :=
      fun n p h => (phaseAt_eq_iff _ _).mpr h
    have harmed : phaseAt (m o) = .armed := hphaseAt o .armed (by simp only [Phase.index]; omega)
    have hordered : phaseAt (m (o + 1)) = .ordered :=
      hphaseAt (o + 1) .ordered (by simp only [Phase.index]; omega)
    have hstale : phaseAt (m v) = .stale := hphaseAt v .stale (by simp only [Phase.index]; omega)
    have horder := hleave o (by omega)
    have hrelease := hleave v (by omega)
    rw [harmed] at horder
    rw [hstale] at hrelease
    refine ⟨o, ⟨?_, ?_⟩, hot, ?_, ?_⟩
    · have hcapture := (hat o).capture
      rw [harmed] at hcapture
      exact hcapture.1
    · have hcapture := (hat (o + 1)).capture
      rw [hordered] at hcapture
      exact hcapture.1
    · intro j hoj hjt
      have hlow : m (o + 1) ≤ m j := hm.monotone hoj
      have hhigh : m j ≤ m t := hm.monotone hjt
      refine ⟨?_, (captureLevel_eq_false hat j).mpr (by omega)⟩
      have hcapture := (hat j).capture
      rcases (by omega : m j % 9 = 1 ∨ m j % 9 = 2) with h1 | h2
      · rw [hphaseAt j .ordered h1] at hcapture
        exact hcapture.1
      · rw [hphaseAt j .enabling h2] at hcapture
        exact hcapture.1
    · rcases exists_latches_between hs hins hat horder.1 hov.le horder.2 hrelease with
        ⟨k, w, hok, hkv, hlatch, hw⟩
      exact ⟨k, w, hok, by omega, hlatch, hw⟩

/-- The order of {lit}`earlyCommand`, with both clocks running on. -/
def orderedRun (n : ℕ) : Event :=
  earlyCommand.getD n (.bothClk quietAdc readySlave)

/-- Capture and read-out exclude each other in a run that orders a frame. -/
theorem capture_readOut_exclusion_orderedRun :
    Exclusive (fun _ => 0#16) (releasedState {} fun _ => 0#16) orderedRun := by
  apply capture_readOut_exclusion {} _ _ _ (afterReset_releasedState {} _)
  intro n
  have hall : ∀ e ∈ earlyCommand, e.NoReset := by
    simp [earlyCommand, Event.NoReset, PdhCore.rstBit, getFrameWord, setLedWord]
  rw [orderedRun, List.getD_eq_getElem?_getD]
  cases hevent : earlyCommand[n]? with
  | none => trivial
  | some e => exact hall e (List.mem_of_getElem? hevent)

/-- Between the starts of two captures nothing but {lit}`CMD_GET_FRAME` need be
latched: a command latched while the capture enable rises comes before the first
start, and still releases the orchestrator afterwards. -/
theorem captures_separated_only_by_getFrame :
    ∃ (s₀ : State {}) (ins : ℕ → Event), AfterReset (fun _ => 0#16) s₀ ∧
      (∀ n, (ins n).NoReset) ∧ ∃ t u, t < u ∧
        Starts (captureLevel (fun _ => 0#16) s₀ ins) t ∧
        Starts (captureLevel (fun _ => 0#16) s₀ ins) u ∧
        ∀ k w, t ≤ k → k < u → Latches (fun _ => 0#16) s₀ ins k w →
          PdhCore.cmdW w = .getFrame := by
  obtain ⟨s₀, hs₀, hcontrol₀⟩ : ∃ s₀ : State {}, AfterReset (fun _ => 0#16) s₀ ∧
      control s₀ = Control.released 0#32 :=
    ⟨_, afterReset_releasedState {} _, control_releasedState {} _⟩
  have hbit₀ := (control_afterReset hs₀).1
  have he := noReset_pdhClk quietAdc
  -- to the edge before the first capture, over it, and to the edge before the second
  have hfirst : (control s₀).follow (fun _ _ => true) earlyCommand = some beforeFirst := by
    rw [hcontrol₀]
    exact follow_earlyCommand
  rcases reaches_of_follow (fun _ => 0#16) hbit₀ hfirst with ⟨s₁, hreach₁, hbit₁, hcontrol₁⟩
  obtain ⟨-, hcontrol₂⟩ := control_of_next (fun _ => 0#16) (e := .pdhClk quietAdc) hbit₁
    (by rw [hcontrol₁]; rfl)
  rcases reaches_duringTransfer (fun _ => 0#16) (rstBit_step (fun _ => 0#16) he hbit₁)
    hcontrol₂ with ⟨s₃, hreach₃, hbit₃, hcontrol₃⟩
  rcases reaches_beforeSecond (fun _ => 0#16) hbit₃ hcontrol₃ with ⟨s₄, hreach₄, hbit₄, hcontrol₄⟩
  obtain ⟨-, hcontrol₅⟩ := control_of_next (fun _ => 0#16) (e := .pdhClk quietAdc)
    hbit₄ (by rw [hcontrol₄]; rfl)
  -- the run that goes this way
  rcases Leads.extend s₀ (fun _ => .pdhClk quietAdc) 0 (.pdhClk quietAdc) hreach₁ with
    ⟨insA, t, -, -, hbefore, hrunA, hafterA⟩
  rcases Leads.resume hrunA (hafterA t le_rfl) (hreach₃.trans hreach₄) with
    ⟨ins, u, htu, hsame, hbetween, hrunB, hafterB⟩
  have hinput : ins t = .pdhClk quietAdc := by rw [(hsame t le_rfl).1, hafterA t le_rfl]
  have hrunT : run (step fun _ => 0#16) s₀ ins t = s₁ := by rw [(hsame t le_rfl).2, hrunA]
  refine ⟨s₀, ins, hs₀, ?_, t, u, htu, ⟨?_, ?_⟩, ⟨?_, ?_⟩, ?_⟩
  · intro n
    rcases Nat.lt_trichotomy n t with hlt | rfl | hgt
    · rw [(hsame n hlt.le).1]
      exact (hbefore n (Nat.zero_le n) hlt).1
    · rw [hinput]
      exact he
    · rcases Nat.lt_or_ge n u with hlt | hge
      · exact (hbetween n hgt hlt).1
      · rw [hafterB n hge]
        exact he
  · change (control (run (step fun _ => 0#16) s₀ ins t)).capturing = false
    rw [hrunT, hcontrol₁]
    rfl
  · change (control (run (step fun _ => 0#16) s₀ ins (t + 1))).capturing = true
    rw [run_succ, hinput, hrunT, hcontrol₂]
    rfl
  · change (control (run (step fun _ => 0#16) s₀ ins u)).capturing = false
    rw [hrunB, hcontrol₄]
    rfl
  · change (control (run (step fun _ => 0#16) s₀ ins (u + 1))).capturing = true
    rw [run_succ, hrunB, hafterB u le_rfl, hcontrol₅]
    rfl
  · rintro k w htk hku ⟨hedge, -, hload⟩
    have hok : latchesOnlyGetFrame (control (run (step fun _ => 0#16) s₀ ins k)) (ins k) =
        true := by
      rcases Nat.eq_or_lt_of_le htk with rfl | hlt
      · rw [hrunT, hinput, hcontrol₁]
        decide
      · exact (hbetween k hlt hku).2
    rw [latchesOnlyGetFrame, if_pos hedge] at hok
    simpa [control, hload] using hok

end PdhTop
end PoundDreverHall
