import PoundDreverHall.Rtl.PdhCore
import PoundDreverHall.Rtl.ReadOut

/-!
# RTL - `pdh_top`

The top level joins the core, the capture memory and the DMA controller.  The
core and the write side of the memory run on {lit}`pdh_clk`, the read side and
the DMA controller on {lit}`fclk0`; software writes the command word through an
AXI GPIO register and may do so between any two edges.

A run is a sequence of events: a write of the GPIO register, a rising edge of
one clock, or a rising edge of both.  Edges that coincide sample the state
before either of them.
-/

namespace PoundDreverHall
namespace PdhTop

/-- Parameters of the instances; the defaults are the ones of the design. -/
structure Params where
  bram : BramController.Params := {}
  dma : DmaController.Params := {}

/-- ADC samples at an edge of {lit}`pdh_clk`. -/
structure Adc where
  adcDatAI : BitVec 14
  adcDatBI : BitVec 14
deriving DecidableEq, Repr

/-- The AXI slave at an edge of {lit}`fclk0`. -/
structure Slave where
  mAxiAwready : Bool
  mAxiWready : Bool
  mAxiBvalid : Bool
  mAxiBresp : BitVec 2
deriving DecidableEq, Repr

/-- What can happen next. -/
inductive Event where
  | gpioWrite (w : BitVec 32)
  | pdhClk (adc : Adc)
  | fclk0 (slave : Slave)
  | bothClk (adc : Adc) (slave : Slave)
deriving DecidableEq, Repr

/-- The GPIO output register and the registers and memories of the design. -/
structure State (P : Params) where
  axiFromPs : BitVec 32
  uPdhCore : PdhCore.State
  uBram : BramController.State P.bram
  mem : DcBram.Mem P.bram.aw
  readOut : ReadOut.State
  irqStretchR : BitVec 5
  irqSyncR : BitVec 3

variable {P : Params}

/-- The DMA controller. -/
abbrev State.uDma (s : State P) : DmaController.State := s.readOut.uDma

/-- Ports of the core. -/
def coreInput (adc : Adc) (s : State P) : PdhCore.Input where
  axiFromPsI := s.axiFromPs
  adcDatAI := adc.adcDatAI
  adcDatBI := adc.adcDatBI
  dmaReadyI := DmaController.dmaReadyO s.uDma
  bramReadyI := BramController.bramReadyO s.uBram

/-- Ports of the write side of the memory; {lit}`core_rst` is the reset bit. -/
def bramInput (s : State P) : BramController.Input where
  rstI := PdhCore.rstBit s.axiFromPs
  din := PdhCore.dmaDataO s.uPdhCore
  enableI := PdhCore.bramEnableO s.uPdhCore
  decimationCodeI := PdhCore.dmaDecimationCodeO s.uPdhCore

/-- Ports of the read-out path. -/
def readOutInput (slave : Slave) (s : State P) : ReadOut.Input where
  rstI := PdhCore.rstBit s.axiFromPs
  mAxiAwready := slave.mAxiAwready
  mAxiWready := slave.mAxiWready
  mAxiBvalid := slave.mAxiBvalid
  mAxiBresp := slave.mAxiBresp
  enableI := PdhCore.dmaEnableO s.uPdhCore

/-- The pulse stretcher `irq_stretch_r`. -/
def nextIrqStretchR (s : State P) : BitVec 5 :=
  if PdhCore.irqO s.uPdhCore then 0x1f#5
  else if s.irqStretchR ≠ 0#5 then s.irqStretchR - 1#5
  else s.irqStretchR

/-- The synchroniser `irq_sync_r`. -/
def nextIrqSyncR (s : State P) : BitVec 3 :=
  s.irqSyncR.extractLsb' 0 2 ++ BitVec.ofBool (s.irqStretchR != 0#5)

/-- A write of the GPIO register.  A reset bit acts at once on the asynchronous
resets of all three modules. -/
def gpioWrite (w : BitVec 32) (s : State P) : State P :=
  if PdhCore.rstBit w then
    { s with
      axiFromPs := w
      uPdhCore := PdhCore.asyncReset s.uPdhCore
      uBram := BramController.asyncReset s.uBram
      readOut := { s.readOut with uDma := DmaController.asyncReset s.uDma } }
  else { s with axiFromPs := w }

/-- A rising edge of {lit}`pdh_clk`. -/
def pdhEdge (rom : Nco.Rom) (adc : Adc) (s : State P) : State P :=
  { s with
    uPdhCore := PdhCore.step rom (coreInput adc s) s.uPdhCore
    uBram := BramController.step (bramInput s) s.uBram
    mem := BramController.stepMem (bramInput s) s.uBram s.mem
    irqStretchR := nextIrqStretchR s }

/-- A rising edge of {lit}`fclk0`. -/
def fclkEdge (slave : Slave) (s : State P) : State P :=
  { s with
    readOut := ReadOut.step P.dma s.mem (readOutInput slave s) s.readOut
    irqSyncR := nextIrqSyncR s }

/-- One event. -/
def step (rom : Nco.Rom) (e : Event) (s : State P) : State P :=
  match e with
  | .gpioWrite w => gpioWrite w s
  | .pdhClk adc => pdhEdge rom adc s
  | .fclk0 slave => fclkEdge slave s
  | .bothClk adc slave =>
      { pdhEdge rom adc s with
        readOut := (fclkEdge slave s).readOut
        irqSyncR := (fclkEdge slave s).irqSyncR }

/-- The interrupt line to the processing system. -/
def irqF2p (s : State P) : Bool := s.irqSyncR.getLsbD 2

/-- The event is a rising edge of {lit}`pdh_clk`. -/
def Event.isPdhEdge : Event → Bool
  | .pdhClk _ => true
  | .bothClk _ _ => true
  | _ => false

/-- The event is a rising edge of {lit}`fclk0`. -/
def Event.isFclkEdge : Event → Bool
  | .fclk0 _ => true
  | .bothClk _ _ => true
  | _ => false

/-- The event does not reset the design. -/
def Event.NoReset : Event → Prop
  | .gpioWrite w => PdhCore.rstBit w = false
  | _ => True

end PdhTop
end PoundDreverHall
