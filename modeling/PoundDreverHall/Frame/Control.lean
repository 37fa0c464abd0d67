import PoundDreverHall.Decoder.CommandStream
import PoundDreverHall.Rtl.PdhTop

/-!
# Frames - the control registers of `pdh_top`

A frame is ordered by the orchestrator of the core, captured by the BRAM
controller and read out by the DMA controller.  What the three do to each other
depends on a few registers only: the command latch, the orchestrator, the reset
pipelines, the states, and the synchronisers and edge detectors in between.

This file cuts these registers out of `pdh_top`.  The datapath enters through two
answers: whether the capture is at its last address, and whether the transfer
gets its last response.

Main results:

- Theorem {lit}`control_step`: outside reset, one event of `pdh_top` is one step
  of the control registers.
- Theorem {lit}`rstBit_run`: without reset commands the reset bit stays low in a run.
- Theorem {lit}`control_afterReset`: a reset that spans edges of both clocks
  leaves one control state.
-/

namespace PoundDreverHall
namespace PdhTop

open Clocked

/-! ## Control registers -/

/-- The command word and the registers that decide when a frame is captured and
read out. -/
structure Control where
  axiFromPs : BitVec 32
  coreRst : ResetSync
  latch : PdhCore.Latch
  orch : PdhCore.Orchestrator
  bramRst : ResetSync
  bramEdge : PosedgeDetector
  capturing : Bool
  dmaRst : ResetSync
  enable1ff : Bool
  enable2ff : Bool
  enable3ff : Bool
  dmaEdge : PosedgeDetector
  transferring : Bool
deriving DecidableEq, Repr

/-- What an event does to the control registers.  An edge of {lit}`pdh_clk` knows
whether the capture is at its last address, an edge of {lit}`fclk0` whether the
transfer gets its last response. -/
inductive Tick where
  | word (w : BitVec 32)
  | pdh (last : Bool)
  | fclk (done : Bool)
  | both (last done : Bool)
deriving DecidableEq, Repr

namespace Control

/-- The command being executed. -/
def cmd (c : Control) : PdhCore.Cmd := PdhCore.cmdW c.latch.axiFromPsR

/-- The BRAM controller sees a rising enable. -/
def bramStart (c : Control) : Bool := c.bramEdge.q c.orch.bramEnableR

/-- The DMA controller sees a rising enable. -/
def dmaStart (c : Control) : Bool := c.dmaEdge.q c.enable3ff

/-- Next value of {lit}`capturing`. -/
def nextCapturing (last : Bool) (c : Control) : Bool :=
  if c.bramRst.rstSyncR then false
  else if c.capturing then !last
  else c.bramStart

/-- Next value of {lit}`transferring`. -/
def nextTransferring (done : Bool) (c : Control) : Bool :=
  if c.dmaRst.rstSyncR then false
  else if c.transferring then !done
  else c.dmaStart

/-- A rising edge of {lit}`pdh_clk` outside reset. -/
def pdhEdge (last : Bool) (c : Control) : Control :=
  { c with
    coreRst := c.coreRst.clock false
    latch := c.latch.step c.coreRst.rstSyncR c.axiFromPs
    orch := c.orch.step c.coreRst.rstSyncR c.cmd (!c.transferring) (!c.capturing)
    bramRst := c.bramRst.clock false
    bramEdge := { prevD := c.orch.bramEnableR }
    capturing := c.nextCapturing last }

/-- A rising edge of {lit}`fclk0` outside reset. -/
def fclkEdge (done : Bool) (c : Control) : Control :=
  { c with
    dmaRst := c.dmaRst.clock false
    enable1ff := !c.dmaRst.rstSyncR && c.orch.dmaEnableR
    enable2ff := !c.dmaRst.rstSyncR && c.enable1ff
    enable3ff := !c.dmaRst.rstSyncR && c.enable2ff
    dmaEdge := { prevD := c.enable3ff }
    transferring := c.nextTransferring done }

/-- One event. -/
def step (e : Tick) (c : Control) : Control :=
  match e with
  | .word w => { c with axiFromPs := w }
  | .pdh last => pdhEdge last c
  | .fclk done => fclkEdge done c
  | .both last done =>
      { pdhEdge last c with
        dmaRst := (fclkEdge done c).dmaRst
        enable1ff := (fclkEdge done c).enable1ff
        enable2ff := (fclkEdge done c).enable2ff
        enable3ff := (fclkEdge done c).enable3ff
        dmaEdge := (fclkEdge done c).dmaEdge
        transferring := (fclkEdge done c).transferring }

/-- The control state in which a reset is released with the word {lit}`w`. -/
def released (w : BitVec 32) : Control where
  axiFromPs := w
  coreRst := .asserted
  latch := .reset
  orch := .reset
  bramRst := .asserted
  bramEdge := .cleared
  capturing := false
  dmaRst := .asserted
  enable1ff := false
  enable2ff := false
  enable3ff := false
  dmaEdge := .cleared
  transferring := false

end Control

/-! ## Refinement -/

variable {P : Params}

/-- The control registers of a state. -/
def control (s : State P) : Control where
  axiFromPs := s.axiFromPs
  coreRst := s.uPdhCore.rst
  latch := s.uPdhCore.latch
  orch := s.uPdhCore.orch
  bramRst := s.uBram.rst
  bramEdge := s.uBram.uEnableEdgeDetector
  capturing := s.uBram.stateR == .captureData
  dmaRst := s.uDma.rst
  enable1ff := s.uDma.enable1ff
  enable2ff := s.uDma.enable2ff
  enable3ff := s.uDma.enable3ff
  dmaEdge := s.uDma.uEnableEdgeDetector
  transferring := s.uDma.stateR != .idle

/-- The DMA controller gets an OKAY response and has no address left. -/
def lastResponse (slave : Slave) (s : State P) : Bool :=
  DmaController.nextStateW P.dma ((readOutInput slave s).toDma s.readOut.rdata) s.uDma == .idle

/-- The part of an event that the control registers see. -/
def tick (s : State P) : Event → Tick
  | .gpioWrite w => .word w
  | .pdhClk _ => .pdh (BramController.lastAddr s.uBram)
  | .fclk0 slave => .fclk (lastResponse slave s)
  | .bothClk _ slave => .both (BramController.lastAddr s.uBram) (lastResponse slave s)

/-- The capture side is ready when nothing is captured. -/
theorem bramReadyO_eq (s : State P) :
    BramController.bramReadyO s.uBram = !(control s).capturing := by
  unfold BramController.bramReadyO control
  cases s.uBram.stateR <;> rfl

/-- The read-out side is ready when nothing is transferred. -/
theorem dmaReadyO_eq (s : State P) :
    DmaController.dmaReadyO s.uDma = !(control s).transferring := by
  unfold DmaController.dmaReadyO control
  cases s.uDma.stateR <;> rfl

section NoReset

variable {s : State P} (hrst : PdhCore.rstBit s.axiFromPs = false)

include hrst

/-- An edge of the core clock and the state of the capture. -/
theorem capturing_pdhEdge (rom : Nco.Rom) (adc : Adc) :
    (control (pdhEdge rom adc s)).capturing =
      (control s).nextCapturing (BramController.lastAddr s.uBram) := by
  cases hsync : s.uBram.rst.rstSyncR <;> cases hst : s.uBram.stateR <;>
    simp [control, pdhEdge, BramController.step, BramController.posedge, bramInput, hrst, hsync,
      hst, Control.nextCapturing, BramController.resetRegs, BramController.nextStateW,
      Control.bramStart, BramController.enableSyncEdgeW, PdhCore.bramEnableO]
  · split_ifs with hedge <;> simp [hedge]
  · split_ifs with hlast <;> simp [hlast]

/-- An edge of the core clock, for all control registers. -/
theorem control_pdhEdge (rom : Nco.Rom) (adc : Adc) :
    control (pdhEdge rom adc s) =
      (control s).pdhEdge (BramController.lastAddr s.uBram) := by
  have hcapturing := capturing_pdhEdge hrst rom adc
  unfold Control.pdhEdge
  rw [← hcapturing]
  simp [control, pdhEdge, PdhCore.step, PdhCore.posedge, PdhCore.negedge, PdhCore.Input.rstI,
    coreInput, hrst, bramReadyO_eq, dmaReadyO_eq, BramController.step, BramController.posedge,
    bramInput, PosedgeDetector.clock, PdhCore.bramEnableO, PdhCore.State.cmd, Control.cmd]

/-- An edge of {lit}`fclk0` and the state of the transfer. -/
theorem transferring_fclkEdge (slave : Slave) :
    (control (fclkEdge slave s)).transferring =
      (control s).nextTransferring (lastResponse slave s) := by
  cases hsync : s.uDma.rst.rstSyncR <;> cases hst : s.uDma.stateR <;>
    simp [control, fclkEdge, ReadOut.step, DmaController.step, DmaController.posedge,
      ReadOut.Input.toDma, readOutInput, hrst, hsync, hst, Control.nextTransferring,
      DmaController.resetRegs, lastResponse, Control.dmaStart]
  · simp only [DmaController.nextStateW, hst, DmaController.enableSyncEdgeW]
    split_ifs with hedge <;> simp [hedge]
  all_goals rfl

/-- An edge of {lit}`fclk0`, for all control registers. -/
theorem control_fclkEdge (slave : Slave) :
    control (fclkEdge slave s) = (control s).fclkEdge (lastResponse slave s) := by
  have htransferring := transferring_fclkEdge hrst slave
  unfold Control.fclkEdge
  rw [← htransferring]
  cases hsync : s.uDma.rst.rstSyncR <;>
    simp [control, fclkEdge, ReadOut.step, DmaController.step, DmaController.posedge,
      ReadOut.Input.toDma, readOutInput, hrst, hsync, PosedgeDetector.clock,
      DmaController.resetRegs, PdhCore.dmaEnableO]

/-- One event outside reset. -/
theorem control_step (rom : Nco.Rom) {e : Event} (he : e.NoReset) :
    control (step rom e s) = (control s).step (tick s e) := by
  cases e with
  | gpioWrite w =>
      simp only [step, gpioWrite, tick, Control.step]
      rw [if_neg (ne_true_of_eq_false he)]
      rfl
  | pdhClk adc => exact control_pdhEdge hrst rom adc
  | fclk0 slave => exact control_fclkEdge hrst slave
  | bothClk adc slave =>
      have hpdh := control_pdhEdge hrst rom adc
      have hfclk := control_fclkEdge hrst slave
      simp only [step, tick, Control.step]
      rw [← hpdh, ← hfclk]
      rfl

omit hrst in
/-- An event that is no reset leaves the reset bit low. -/
theorem rstBit_step (rom : Nco.Rom) {e : Event} (he : e.NoReset)
    (hrst : PdhCore.rstBit s.axiFromPs = false) :
    PdhCore.rstBit (step rom e s).axiFromPs = false := by
  cases e with
  | gpioWrite w =>
      simp only [step, gpioWrite]
      split_ifs
      · exact he
      · exact he
  | pdhClk adc => exact hrst
  | fclk0 slave => exact hrst
  | bothClk adc slave => exact hrst

end NoReset

/-- What the control registers see of a run. -/
def ticks (rom : Nco.Rom) (s₀ : State P) (ins : ℕ → Event) (n : ℕ) : Tick :=
  tick (run (step rom) s₀ ins n) (ins n)

section Runs

variable (rom : Nco.Rom) {s₀ : State P} {ins : ℕ → Event}
  (hrst : PdhCore.rstBit s₀.axiFromPs = false) (hins : ∀ n, (ins n).NoReset)

include hrst hins

theorem rstBit_run (n : ℕ) : PdhCore.rstBit (run (step rom) s₀ ins n).axiFromPs = false := by
  induction n with
  | zero => exact hrst
  | succ n ih => exact rstBit_step rom (hins n) ih

end Runs

/-! ## The initial reset -/

/-- The event keeps the reset bit of the command word high. -/
def Event.KeepsReset : Event → Prop
  | .gpioWrite w => PdhCore.rstBit w = true
  | _ => True

/-- The state after a reset: from an arbitrary state the reset bit was raised, it
stayed high for edges of both clocks, and then it was lowered. -/
def AfterReset (rom : Nco.Rom) (s₀ : State P) : Prop :=
  ∃ (s : State P) (w w' : BitVec 32) (ins : ℕ → Event) (n : ℕ),
    PdhCore.rstBit w = true ∧ PdhCore.rstBit w' = false ∧
    (∀ k < n, (ins k).KeepsReset) ∧
    (∃ k < n, (ins k).isPdhEdge = true) ∧ (∃ k < n, (ins k).isFclkEdge = true) ∧
    s₀ = gpioWrite w' (run (step rom) (gpioWrite w s) ins n)

/-- The registers on {lit}`pdh_clk` have their reset values. -/
def PdhReset (s : State P) : Prop :=
  s.uPdhCore.rst = .asserted ∧ s.uPdhCore.latch = .reset ∧ s.uPdhCore.orch = .reset ∧
    s.uBram = BramController.resetState

/-- The registers on {lit}`fclk0` have their reset values. -/
def FclkReset (s : State P) : Prop :=
  s.uDma = DmaController.resetState P.dma

section Reset

variable {s : State P} (hrst : PdhCore.rstBit s.axiFromPs = true)

include hrst

/-- An event that keeps the reset bit leaves it high. -/
theorem rstBit_step_of_keepsReset (rom : Nco.Rom) {e : Event} (he : e.KeepsReset) :
    PdhCore.rstBit (step rom e s).axiFromPs = true := by
  cases e with
  | gpioWrite w =>
      simp only [step, gpioWrite]
      split_ifs
      · exact he
      · exact he
  | pdhClk adc => exact hrst
  | fclk0 slave => exact hrst
  | bothClk adc slave => exact hrst

theorem pdhReset_pdhEdge (rom : Nco.Rom) (adc : Adc) : PdhReset (pdhEdge rom adc s) := by
  refine ⟨?_, ?_, ?_, BramController.step_reset _ _ hrst⟩ <;>
    simp [pdhEdge, PdhCore.step, PdhCore.Input.rstI, coreInput, hrst, PdhCore.posedge,
      PdhCore.negedge, PdhCore.asyncReset, PdhCore.Latch.step, PdhCore.Orchestrator.step,
      ResetSync.asserted]

theorem fclkReset_fclkEdge (slave : Slave) : FclkReset (fclkEdge slave s) :=
  DmaController.step_reset P.dma _ _ hrst

/-- An edge of {lit}`pdh_clk` under reset resets its domain, and no event undoes
that. -/
theorem pdhReset_step (rom : Nco.Rom) {e : Event} (he : e.KeepsReset)
    (h : e.isPdhEdge = true ∨ PdhReset s) : PdhReset (step rom e s) := by
  cases e with
  | gpioWrite w =>
      rcases h with hedge | ⟨hcore, hlatch, horch, hbram⟩
      · cases hedge
      · simp only [step, gpioWrite]
        rw [if_pos (show PdhCore.rstBit w = true from he)]
        refine ⟨rfl, ?_, ?_, ?_⟩
        · simp [PdhCore.asyncReset, hlatch, PdhCore.Latch.reset]
        · simp [PdhCore.asyncReset, horch, PdhCore.Orchestrator.reset]
        · simp [hbram, BramController.asyncReset, BramController.resetState]
  | pdhClk adc => exact pdhReset_pdhEdge hrst rom adc
  | fclk0 slave =>
      rcases h with hedge | hreset
      · cases hedge
      · exact hreset
  | bothClk adc slave => exact pdhReset_pdhEdge hrst rom adc

/-- An edge of {lit}`fclk0` under reset resets its domain, and no event undoes
that. -/
theorem fclkReset_step (rom : Nco.Rom) {e : Event} (he : e.KeepsReset)
    (h : e.isFclkEdge = true ∨ FclkReset s) : FclkReset (step rom e s) := by
  cases e with
  | gpioWrite w =>
      rcases h with hedge | hreset
      · cases hedge
      · simp only [step, gpioWrite]
        rw [if_pos (show PdhCore.rstBit w = true from he)]
        unfold FclkReset at hreset ⊢
        simp [State.uDma, hreset, DmaController.asyncReset, DmaController.resetState]
  | pdhClk adc =>
      rcases h with hedge | hreset
      · cases hedge
      · exact hreset
  | fclk0 slave => exact fclkReset_fclkEdge hrst slave
  | bothClk adc slave => exact fclkReset_fclkEdge hrst slave

end Reset

/-- Under reset, a domain that has had an edge has its reset values. -/
theorem reset_run (rom : Nco.Rom) {s : State P} {ins : ℕ → Event}
    (hrst : PdhCore.rstBit s.axiFromPs = true) {n : ℕ} (hins : ∀ k < n, (ins k).KeepsReset) :
    PdhCore.rstBit (run (step rom) s ins n).axiFromPs = true ∧
      ((∃ k < n, (ins k).isPdhEdge = true) → PdhReset (run (step rom) s ins n)) ∧
      ((∃ k < n, (ins k).isFclkEdge = true) → FclkReset (run (step rom) s ins n)) := by
  induction n with
  | zero =>
      refine ⟨hrst, ?_, ?_⟩ <;>
        · rintro ⟨k, hk, -⟩
          exact absurd hk (Nat.not_lt_zero k)
  | succ n ih =>
      obtain ⟨hbit, hpdh, hfclk⟩ := ih fun k hk => hins k (Nat.lt_succ_of_lt hk)
      have hkeeps := hins n (Nat.lt_succ_self n)
      refine ⟨rstBit_step_of_keepsReset hbit rom hkeeps, ?_, ?_⟩
      · rintro ⟨k, hk, hedge⟩
        apply pdhReset_step hbit rom hkeeps
        rcases Nat.lt_succ_iff_lt_or_eq.mp hk with hlt | rfl
        · exact .inr (hpdh ⟨k, hlt, hedge⟩)
        · exact .inl hedge
      · rintro ⟨k, hk, hedge⟩
        apply fclkReset_step hbit rom hkeeps
        rcases Nat.lt_succ_iff_lt_or_eq.mp hk with hlt | rfl
        · exact .inr (hfclk ⟨k, hlt, hedge⟩)
        · exact .inl hedge

/-- The control registers after a reset. -/
theorem control_afterReset {rom : Nco.Rom} {s₀ : State P} (h : AfterReset rom s₀) :
    PdhCore.rstBit s₀.axiFromPs = false ∧ control s₀ = Control.released s₀.axiFromPs := by
  rcases h with ⟨s, w, w', ins, n, hw, hw', hins, hpdhEdge, hfclkEdge, rfl⟩
  have hstart : PdhCore.rstBit (gpioWrite w s).axiFromPs = true := by
    rw [gpioWrite, if_pos hw]
    exact hw
  obtain ⟨-, hpdh, hfclk⟩ := reset_run rom hstart hins
  obtain ⟨hcore, hlatch, horch, hbram⟩ := hpdh hpdhEdge
  have hdma : (run (step rom) (gpioWrite w s) ins n).uDma = DmaController.resetState P.dma :=
    hfclk hfclkEdge
  have hword : gpioWrite w' (run (step rom) (gpioWrite w s) ins n) =
      { run (step rom) (gpioWrite w s) ins n with axiFromPs := w' } := by
    rw [gpioWrite, if_neg (ne_true_of_eq_false hw')]
  rw [hword]
  refine ⟨hw', ?_⟩
  simp only [control, State.uDma] at hdma ⊢
  rw [hdma, hcore, hlatch, horch, hbram]
  rfl

/-- Every register at its reset value. -/
def resetState (P : Params) : State P where
  axiFromPs := 0#32
  uPdhCore := PdhCore.afterReset PdhCore.Path.reset
  uBram := BramController.resetState
  mem := fun _ => 0#64
  readOut := { uDma := DmaController.resetState P.dma, rdata := 0#64 }
  irqStretchR := 0#5
  irqSyncR := 0#3

/-- An edge of both clocks with nothing on the inputs. -/
def resetEdge : Event := .bothClk ⟨0#14, 0#14⟩ ⟨false, false, false, 0#2⟩

/-- The state after a reset of one edge. -/
def releasedState (P : Params) (rom : Nco.Rom) : State P :=
  gpioWrite 0#32 (run (step rom) (gpioWrite 0x80000000#32 (resetState P)) (fun _ => resetEdge) 1)

/-- There is such a state. -/
theorem afterReset_releasedState (P : Params) (rom : Nco.Rom) :
    AfterReset rom (releasedState P rom) :=
  ⟨resetState P, 0x80000000#32, 0#32, fun _ => resetEdge, 1, by decide, by decide,
    fun _ _ => trivial, ⟨0, Nat.one_pos, rfl⟩, ⟨0, Nat.one_pos, rfl⟩, rfl⟩

theorem control_releasedState (P : Params) (rom : Nco.Rom) :
    control (releasedState P rom) = Control.released 0#32 :=
  (control_afterReset (afterReset_releasedState P rom)).2

end PdhTop
end PoundDreverHall
