import PoundDreverHall.Rtl.Commands
import PoundDreverHall.Rtl.Fir
import PoundDreverHall.Rtl.Nco
import PoundDreverHall.Rtl.PidCore

/-!
# RTL - `pdh_core`

The core brings the command word through three registers, latches it on a
rising strobe, keeps executing the latched command, and posts a callback.  It
also runs the signal path and orchestrates capture and read-out.

The registers are grouped by what drives them: the reset pipelines, the command
latch, the configuration registers, the DMA orchestrator, the interrupt, the
signal path, and the callback.
-/

namespace PoundDreverHall
namespace PdhCore

/-- Input ports. -/
structure Input where
  axiFromPsI : BitVec 32
  adcDatAI : BitVec 14
  adcDatBI : BitVec 14
  dmaReadyI : Bool
  bramReadyI : Bool
deriving DecidableEq, Repr

/-- `rst_i`, which is also the output `rst_o`. -/
def Input.rstI (i : Input) : Bool := rstBit i.axiFromPsI

/-! ## Command latch -/

/-- The synchroniser of the command word, its strobe detector, and the latched
word `axi_from_ps_r`. -/
structure Latch where
  axi1ffR : BitVec 32
  axi2ffR : BitVec 32
  axi3ffR : BitVec 32
  uStrobeEdgeDetector : PosedgeDetector
  axiFromPsR : BitVec 32
deriving DecidableEq, Repr

namespace Latch

/-- Values under reset. -/
def reset : Latch where
  axi1ffR := 0#32
  axi2ffR := 0#32
  axi3ffR := 0#32
  uStrobeEdgeDetector := .cleared
  axiFromPsR := 0#32

/-- `strobe_edge_w`. -/
def strobeEdgeW (l : Latch) : Bool :=
  l.uStrobeEdgeDetector.q (strobeBit l.axi3ffR)

/-- `next_axi_from_ps_w`. -/
def nextAxiFromPsW (l : Latch) : BitVec 32 :=
  if strobeEdgeW l then l.axi3ffR else l.axiFromPsR

/-- One rising edge; the strobe detector has an asynchronous reset by
`rst_sync_r`. -/
def step (rstSyncR : Bool) (axiFromPsI : BitVec 32) (l : Latch) : Latch :=
  if rstSyncR then reset
  else
    { axi1ffR := axiFromPsI
      axi2ffR := l.axi1ffR
      axi3ffR := l.axi2ffR
      uStrobeEdgeDetector := l.uStrobeEdgeDetector.clock false (strobeBit l.axi3ffR)
      axiFromPsR := nextAxiFromPsW l }

end Latch

/-! ## DMA orchestrator -/

/-- `dma_control_state_t`. -/
inductive DmaSt where
  | armed
  | runBram
  | runAxi
  | stale
deriving DecidableEq, Repr

/-- The synchronisers of the two ready levels, and the orchestrator with its
enable outputs. -/
structure Orchestrator where
  dmaReady1ff : Bool
  dmaReady2ff : Bool
  dmaReady3ff : Bool
  uDmaEdgeDetector : PosedgeDetector
  bramReadyR : Bool
  uBramEdgeDetector : PosedgeDetector
  bramEdgeAcquiredR : Bool
  dmaEnableR : Bool
  bramEnableR : Bool
  dmaStateR : DmaSt
deriving DecidableEq, Repr

namespace Orchestrator

/-- Values under reset. -/
def reset : Orchestrator where
  dmaReady1ff := false
  dmaReady2ff := false
  dmaReady3ff := false
  uDmaEdgeDetector := .cleared
  bramReadyR := false
  uBramEdgeDetector := .cleared
  bramEdgeAcquiredR := false
  dmaEnableR := false
  bramEnableR := false
  dmaStateR := .armed

/-- `dma_ready_edge_w`. -/
def dmaReadyEdgeW (o : Orchestrator) : Bool :=
  o.uDmaEdgeDetector.q o.dmaReady3ff

/-- `bram_ready_edge_w`. -/
def bramReadyEdgeW (o : Orchestrator) : Bool :=
  o.uBramEdgeDetector.q o.bramReadyR

/-- `next_dma_state_w`. -/
def nextDmaStateW (cmd : Cmd) (o : Orchestrator) : DmaSt :=
  match o.dmaStateR with
  | .armed => if o.bramReadyR ∧ cmd = .getFrame then .runBram else .armed
  | .runBram => if o.bramEdgeAcquiredR && o.dmaReady3ff then .runAxi else .runBram
  | .runAxi => if dmaReadyEdgeW o then .stale else .runAxi
  | .stale => if cmd ≠ .getFrame then .armed else .stale

/-- `next_dma_enable_w`. -/
def nextDmaEnableW (o : Orchestrator) : Bool :=
  match o.dmaStateR with
  | .armed => false
  | .runBram => false
  | .runAxi => true
  | .stale => false

/-- `next_bram_enable_w`. -/
def nextBramEnableW (o : Orchestrator) : Bool :=
  match o.dmaStateR with
  | .armed => false
  | .runBram => true
  | .runAxi => false
  | .stale => false

/-- `next_bram_edge_acquired_w`. -/
def nextBramEdgeAcquiredW (o : Orchestrator) : Bool :=
  match o.dmaStateR with
  | .armed => false
  | .runBram => if bramReadyEdgeW o then true else o.bramEdgeAcquiredR
  | .runAxi => false
  | .stale => false

/-- One rising edge. -/
def step (rstSyncR : Bool) (cmd : Cmd) (dmaReadyI bramReadyI : Bool) (o : Orchestrator) :
    Orchestrator :=
  if rstSyncR then reset
  else
    { dmaReady1ff := dmaReadyI
      dmaReady2ff := o.dmaReady1ff
      dmaReady3ff := o.dmaReady2ff
      uDmaEdgeDetector := o.uDmaEdgeDetector.clock false o.dmaReady3ff
      bramReadyR := bramReadyI
      uBramEdgeDetector := o.uBramEdgeDetector.clock false o.bramReadyR
      bramEdgeAcquiredR := nextBramEdgeAcquiredW o
      dmaEnableR := nextDmaEnableW o
      bramEnableR := nextBramEnableW o
      dmaStateR := nextDmaStateW cmd o }

end Orchestrator

/-! ## Interrupt -/

/-- `cmd_incoming_w`: the command about to be latched. -/
def cmdIncomingW (l : Latch) : Cmd := cmdW l.axi3ffR

/-- The value of `irq_r` after one rising edge. -/
def nextIrqR (rstSyncR : Bool) (l : Latch) (o : Orchestrator) : Bool :=
  if rstSyncR then false
  else if l.strobeEdgeW ∧ cmdIncomingW l ≠ .idle ∧ cmdIncomingW l ≠ .getFrame then true
  else if o.dmaReadyEdgeW then true
  else false

/-! ## Signal path -/

/-- Registers of the signal path. -/
structure Path where
  adcDatA16sR : BitVec 16
  adcDatB16sR : BitVec 16
  iFeedR : BitVec 16
  qFeedR : BitVec 16
  uNco : Nco.State
  ncoOut1R : BitVec 16
  ncoOut2R : BitVec 16
  ncoFeed1R : BitVec 14
  ncoFeed2R : BitVec 14
  uFir : Fir.State 5 16
  demodOut : BitVec 16
  demodLpfR : BitVec 16
  uPid : PidCore.State
  dmaDataR : BitVec 64

namespace Path

/-- Values under reset, with zeros in the registers and memories that have no
reset. -/
def reset : Path where
  adcDatA16sR := 0#16
  adcDatB16sR := 0#16
  iFeedR := 0#16
  qFeedR := 0#16
  uNco := Nco.resetState
  ncoOut1R := 0#16
  ncoOut2R := 0#16
  ncoFeed1R := 0#14
  ncoFeed2R := 0#14
  uFir := Fir.resetState fun _ => 0
  demodOut := 0#16
  demodLpfR := 0#16
  uPid := PidCore.resetState
  dmaDataR := 0#64

/-- `adc_dat_a_16s_w` and `adc_dat_b_16s_w`: centred and negated. -/
def adc16sW (adcDatI : BitVec 14) : BitVec 16 :=
  (-(adcDatI.setWidth 15 - 8192#15)).signExtend 16

/-- `i_rot_w`. -/
def iRotW (r : Regs) (p : Path) : BitVec 33 :=
  r.rotCosThetaR.signExtend 33 * p.adcDatA16sR.signExtend 33 -
    r.rotSinThetaR.signExtend 33 * p.adcDatB16sR.signExtend 33

/-- `q_rot_w`. -/
def qRotW (r : Regs) (p : Path) : BitVec 33 :=
  r.rotSinThetaR.signExtend 33 * p.adcDatA16sR.signExtend 33 +
    r.rotCosThetaR.signExtend 33 * p.adcDatB16sR.signExtend 33

/-- `i_rot_sat_w` and `q_rot_sat_w`; the direction is taken from bit 31. -/
def rotSatW (x : BitVec 33) : BitVec 32 :=
  if x.getLsbD 32 ^^ x.getLsbD 31 then
    if x.getLsbD 31 then 0x80000000#32 else 0x7FFFFFFF#32
  else x.setWidth 32

/-- `i_feed_w`. -/
def iFeedW (r : Regs) (p : Path) : BitVec 16 := (rotSatW (iRotW r p)).extractLsb' 15 16

/-- `q_feed_w`. -/
def qFeedW (r : Regs) (p : Path) : BitVec 16 := (rotSatW (qRotW r p)).extractLsb' 15 16

/-- `s16_to_u14`. -/
def s16ToU14 (x : BitVec 16) : BitVec 14 := (-(x >>> 2) + 8191#16).setWidth 14

/-- `fir_in_w`. -/
def firInW (r : Regs) (p : Path) : BitVec 16 :=
  match r.firInputSelR with
  | 0b000#3 => p.adcDatA16sR
  | 0b001#3 => p.adcDatB16sR
  | 0b010#3 => p.iFeedR
  | 0b011#3 => p.qFeedR
  | 0b100#3 => p.demodOut
  | 0b101#3 => p.demodLpfR
  | _ => p.adcDatA16sR

/-- `fir_out_w`. -/
def firOutW (p : Path) : BitVec 16 := Fir.doutO p.uFir

/-- `demod_ref_w`. -/
def demodRefW (r : Regs) (p : Path) : BitVec 16 :=
  if r.demodRefSelR then p.ncoOut2R else p.ncoOut1R

/-- `demod_in_w`. -/
def demodInW (r : Regs) (p : Path) : BitVec 16 :=
  match r.demodInSelR with
  | 0b000#3 => p.ncoOut1R
  | 0b001#3 => p.ncoOut2R
  | 0b010#3 => p.adcDatA16sR
  | 0b011#3 => p.adcDatB16sR
  | 0b100#3 => p.iFeedR
  | 0b101#3 => p.qFeedR
  | 0b110#3 => firOutW p
  | _ => p.ncoOut1R

/-- `demod_lpf_w`. -/
def demodLpfW (r : Regs) (p : Path) : BitVec 16 :=
  (p.demodOut - p.demodLpfR).sshiftRight r.demodLpfAlphaR.toNat + p.demodLpfR

/-- `pid_in_w`. -/
def pidInW (r : Regs) (p : Path) : BitVec 16 :=
  match r.pidSelR with
  | 0b000#3 => p.iFeedR
  | 0b001#3 => p.qFeedR
  | 0b010#3 => p.adcDatA16sR
  | 0b011#3 => p.adcDatB16sR
  | 0b100#3 => firOutW p
  | 0b101#3 => p.demodOut
  | 0b110#3 => p.demodLpfR
  | _ => p.adcDatA16sR

/-- `dac1_feed_w` and `dac2_feed_w`. -/
def dacFeedW (sel : BitVec 3) (dacDatR : BitVec 14) (p : Path) : BitVec 14 :=
  match sel with
  | 0b000#3 => dacDatR
  | 0b001#3 => PidCore.pidOut p.uPid
  | 0b010#3 => p.ncoFeed1R
  | 0b011#3 => p.ncoFeed2R
  | _ => 8192#14

/-- Ports of the oscillator. -/
def ncoInput (rstSyncR : Bool) (r : Regs) : Nco.Input where
  enableI := r.ncoEnR
  rstI := rstSyncR
  strideI := r.ncoStrideR
  shiftI := r.ncoShiftR
  invertI := r.ncoInvR
  subI := r.ncoSubR

/-- Ports of the filter. -/
def firInput (rstSyncR : Bool) (r : Regs) (p : Path) : Fir.Input 5 16 where
  rst := rstSyncR
  tapAddrI := r.tapAddrR
  tapCoeffI := r.tapCoeffR
  tapMemWriteEnI := r.tapMemWriteEnR
  tapChainWriteEnI := r.tapChainWriteEnR
  dinI := firInW r p

/-- Ports of the controller. -/
def pidInput (rstSyncR : Bool) (r : Regs) (p : Path) : PidCore.Input where
  rst := rstSyncR
  kpI := r.kpR
  kdI := r.kdR
  kiI := r.kiR
  decimateI := r.decR
  spI := r.spR
  alphaI := r.alphaR
  satwidthI := r.satwidthR
  datI := pidInW r p
  enableI := r.pidEnableR
  gainI := r.gainR
  egainI := r.egainR
  biasI := r.biasR

/-- `dma_data_w`: the word packed under the current frame code. -/
def dmaDataW (rstSyncR : Bool) (i : Input) (r : Regs) (d : DacRegs) (p : Path) : BitVec 64 :=
  match r.frameCodeR with
  | 0b0001#4 =>
      PidCore.errTap p.uPid ++ PidCore.perrTap p.uPid ++ PidCore.derrTap p.uPid ++
        PidCore.ierrTap p.uPid
  | 0b0010#4 =>
      PidCore.errTap p.uPid ++ 0#2 ++ PidCore.pidOut p.uPid ++
        PidCore.sumErrTap (pidInput rstSyncR r p) p.uPid
  | 0b0011#4 => 0#2 ++ p.ncoFeed2R ++ 0#2 ++ p.ncoFeed1R ++ p.ncoOut2R ++ p.ncoOut1R
  | 0b0100#4 =>
      0#4 ++ Nco.addr2O p.uNco ++ 0#4 ++ Nco.addr1O p.uNco ++ 0#2 ++ Nco.phi2O p.uNco ++
        0#2 ++ Nco.phi1O p.uNco
  | 0b0101#4 =>
      0#2 ++ dacFeedW r.dac1DatSelR d.dac1DatR p ++ 0#2 ++ dacFeedW r.dac2DatSelR d.dac2DatR p ++
        0#2 ++ i.adcDatAI ++ 0#2 ++ i.adcDatBI
  | 0b0110#4 => 0#32 ++ firOutW p ++ firInW r p
  | 0b0111#4 =>
      0#16 ++ 0#2 ++ PidCore.pidOut p.uPid ++ PidCore.errTap p.uPid ++ pidInW r p
  | 0b1000#4 => p.demodLpfR ++ p.demodOut ++ demodRefW r p ++ demodInW r p
  | _ => p.iFeedR ++ p.qFeedR ++ p.adcDatA16sR ++ p.adcDatB16sR

/-- One rising edge.  Under reset `nco_out2_r` keeps its value: the source
resets `nco_out1_r` twice instead. -/
def step (rom : Nco.Rom) (rstSyncR : Bool) (i : Input) (r : Regs) (d : DacRegs) (p : Path) :
    Path where
  adcDatA16sR := if rstSyncR then 0#16 else adc16sW i.adcDatAI
  adcDatB16sR := if rstSyncR then 0#16 else adc16sW i.adcDatBI
  iFeedR := if rstSyncR then 0#16 else iFeedW r p
  qFeedR := if rstSyncR then 0#16 else qFeedW r p
  uNco := Nco.step rom (ncoInput rstSyncR r) p.uNco
  ncoOut1R := if rstSyncR then 0#16 else Nco.out1O p.uNco
  ncoOut2R := if rstSyncR then p.ncoOut2R else Nco.out2O p.uNco
  ncoFeed1R := if rstSyncR then 0#14 else s16ToU14 p.ncoOut1R
  ncoFeed2R := if rstSyncR then 0#14 else s16ToU14 p.ncoOut2R
  uFir := Fir.step (firInput rstSyncR r p) p.uFir
  demodOut := IqDemod.step rstSyncR (demodRefW r p) (demodInW r p)
  demodLpfR := if rstSyncR then 0#16 else demodLpfW r p
  uPid := PidCore.step (pidInput rstSyncR r p) p.uPid
  dmaDataR := if rstSyncR then 0#64 else dmaDataW rstSyncR i r d p

end Path

/-! ## Callback -/

/-- What a callback can show besides configuration registers. -/
structure Observed where
  adcDatAI : BitVec 14
  adcDatBI : BitVec 14
  adcDatA16sR : BitVec 16
  adcDatB16sR : BitVec 16
  iFeedR : BitVec 16
  qFeedR : BitVec 16
  demodLpfR : BitVec 16
  dmaReady3ff : Bool
deriving DecidableEq, Repr

/-- `pid_payload_w`. -/
def pidPayloadW (sel : PidCoeffSel) (r : Regs) : BitVec 16 :=
  match sel with
  | .kp => r.kpR
  | .kd => r.kdR
  | .ki => r.kiR
  | .sp => r.spR.signExtend 16
  | .dec => r.decR.setWidth 16
  | .alpha => r.alphaR.setWidth 16
  | .sat => r.satwidthR.setWidth 16
  | .en => (BitVec.ofBool r.pidEnableR).setWidth 16
  | .gain => r.gainR
  | .bias => (-r.biasR).signExtend 16
  | .egain => r.egainR
  | .unassigned => 0#16

/-- `fir_payload_w`. -/
def firPayloadW (sel : FirUpdateSel) (r : Regs) : BitVec 16 :=
  match sel with
  | .addr => r.tapAddrR.setWidth 16
  | .coeff => r.tapCoeffR
  | .inputSel => r.firInputSelR.setWidth 16
  | .memWriteEn => (BitVec.ofBool r.tapMemWriteEnR).setWidth 16
  | .chainWriteEn => (BitVec.ofBool r.tapChainWriteEnR).setWidth 16
  | .unassigned => 0#16

/-- The low half of `cs_cb_w`, by the register selected. -/
def csPayloadW (sel : BitVec 5) (r : Regs) (o : Observed) : BitVec 16 :=
  match sel with
  | 0b00000#5 => o.adcDatA16sR
  | 0b00001#5 => o.adcDatB16sR
  | 0b00010#5 => r.cosThetaR
  | 0b00011#5 => r.sinThetaR
  | 0b00100#5 => r.rotCosThetaR
  | 0b00101#5 => r.rotSinThetaR
  | 0b00110#5 => o.iFeedR
  | 0b00111#5 => o.qFeedR
  | 0b01000#5 => 0#15 ++ BitVec.ofBool o.dmaReady3ff
  | 0b01001#5 => o.demodLpfR
  | 0b01010#5 => r.kpR
  | 0b01011#5 => r.kdR
  | 0b01100#5 => r.kiR
  | 0b01101#5 => 0#2 ++ r.decR
  | 0b01110#5 => r.spR.signExtend 16
  | 0b01111#5 => 0#6 ++ r.satwidthR ++ r.alphaR ++ BitVec.ofBool r.pidEnableR
  | 0b10000#5 => 0#7 ++ r.pidSelR ++ r.dac2DatSelR ++ r.dac1DatSelR
  | 0b10001#5 => 0#13 ++ r.dac1DatSelR
  | 0b10010#5 => 0#13 ++ r.dac2DatSelR
  | 0b10011#5 => 0#13 ++ r.pidSelR
  | _ => 0#16

/-- `next_callback_w` for the latched word {lit}`w`. -/
def nextCallbackW (w : BitVec 32) (r : Regs) (d : DacRegs) (o : Observed) : BitVec 32 :=
  match cmdW w with
  | .idle => 0#32
  | .setLed => 0b0001#4 ++ 0#20 ++ r.ledR
  | .setDac => 0b0010#4 ++ d.dac1DatR ++ d.dac2DatR
  | .getAdc => 0b0011#4 ++ o.adcDatBI ++ o.adcDatAI
  | .checkSigned => 0b0100#4 ++ 0#7 ++ w.extractLsb' 0 5 ++ csPayloadW (w.extractLsb' 0 5) r o
  | .setRotCoeffs => 0b0101#4 ++ r.sinThetaR.extractLsb' 2 14 ++ r.cosThetaR.extractLsb' 2 14
  | .commitRotCoeffs => 0b0110#4 ++ o.qFeedR.extractLsb' 2 14 ++ o.iFeedR.extractLsb' 2 14
  | .getFrame =>
      0b0111#4 ++ 0#1 ++ r.frameCodeR ++ r.dmaDecimationCodeR ++ BitVec.ofBool o.dmaReady3ff
  | .setPidCoeffs =>
      0b1000#4 ++ 0#8 ++ pidCoeffSelectCode w ++ pidPayloadW (pidCoeffSelectW w) r
  | .setNco =>
      0b1001#4 ++ 0#1 ++ r.ncoStrideR ++ r.ncoShiftR ++ BitVec.ofBool r.ncoSubR ++
        BitVec.ofBool r.ncoInvR ++ BitVec.ofBool r.ncoEnR
  | .setFir => 0b1010#4 ++ 0#9 ++ firUpdateSelCode w ++ firPayloadW (firUpdateSelW w) r
  | .configDemod =>
      0b1011#4 ++ 0#20 ++ r.demodLpfAlphaR ++ r.demodInSelR ++ BitVec.ofBool r.demodRefSelR
  | .configIo => 0b1110#4 ++ 0#19 ++ r.pidSelR ++ r.dac2DatSelR ++ r.dac1DatSelR
  | .unassigned => 0#32

/-! ## The core -/

/-- Registers. -/
@[ext]
structure State where
  rst : ResetSync
  rstNe : ResetSync
  latch : Latch
  regs : Regs
  dac : DacRegs
  orch : Orchestrator
  irqR : Bool
  path : Path
  callbackR : BitVec 32

/-- The command being executed. -/
def State.cmd (s : State) : Cmd := cmdW s.latch.axiFromPsR

/-- What the callback of the current command can show. -/
def observed (i : Input) (s : State) : Observed where
  adcDatAI := i.adcDatAI
  adcDatBI := i.adcDatBI
  adcDatA16sR := s.path.adcDatA16sR
  adcDatB16sR := s.path.adcDatB16sR
  iFeedR := s.path.iFeedR
  qFeedR := s.path.qFeedR
  demodLpfR := s.path.demodLpfR
  dmaReady3ff := s.orch.dmaReady3ff

/-- Effect of a rising {lit}`rst_i` between clock edges.  The edge detectors are
cleared through `rst_sync_r`. -/
def asyncReset (s : State) : State :=
  { s with
    rst := .asserted
    rstNe := .asserted
    latch := { s.latch with uStrobeEdgeDetector := .cleared }
    orch :=
      { s.orch with
        uDmaEdgeDetector := .cleared
        uBramEdgeDetector := .cleared } }

/-- One falling edge of {lit}`clk`. -/
def negedge (i : Input) (s : State) : State :=
  { s with
    rstNe := s.rstNe.clock i.rstI
    dac :=
      if s.rstNe.rstSyncR then DacRegs.reset
      else DacRegs.next s.latch.axiFromPsR s.dac }

/-- One rising edge of {lit}`clk`. -/
def posedge (rom : Nco.Rom) (i : Input) (s : State) : State :=
  { s with
    rst := s.rst.clock i.rstI
    latch := s.latch.step s.rst.rstSyncR i.axiFromPsI
    regs := if s.rst.rstSyncR then Regs.reset else Regs.next s.latch.axiFromPsR s.regs
    orch := s.orch.step s.rst.rstSyncR s.cmd i.dmaReadyI i.bramReadyI
    irqR := nextIrqR s.rst.rstSyncR s.latch s.orch
    path := s.path.step rom s.rst.rstSyncR i s.regs s.dac
    callbackR :=
      if s.rst.rstSyncR then 0#32
      else nextCallbackW s.latch.axiFromPsR s.regs s.dac (observed i s) }

/-- One clock period with stable inputs: the falling edge in its middle, then
the rising edge that ends it. -/
def step (rom : Nco.Rom) (i : Input) (s : State) : State :=
  posedge rom i (negedge i (if i.rstI then asyncReset s else s))

/-! ## Output ports -/

/-- `axi_to_ps_o`. -/
def axiToPsO (s : State) : BitVec 32 := s.callbackR

/-- `led_o`. -/
def ledO (s : State) : BitVec 8 := s.regs.ledR

/-- `dac_dat_o`. -/
def dacDatO (s : State) : BitVec 14 :=
  if s.dac.dacSelR then s.path.dacFeedW s.regs.dac2DatSelR s.dac.dac2DatR
  else s.path.dacFeedW s.regs.dac1DatSelR s.dac.dac1DatR

/-- `dac_sel_o`. -/
def dacSelO (s : State) : Bool := s.dac.dacSelR

/-- `dac_rst_o`. -/
def dacRstO (s : State) : Bool := s.rst.rstSyncR

/-- `dma_enable_o`. -/
def dmaEnableO (s : State) : Bool := s.orch.dmaEnableR

/-- `bram_enable_o`. -/
def bramEnableO (s : State) : Bool := s.orch.bramEnableR

/-- `dma_decimation_code_o`. -/
def dmaDecimationCodeO (s : State) : BitVec 22 := s.regs.dmaDecimationCodeR

/-- `dma_data_o`. -/
def dmaDataO (s : State) : BitVec 64 := s.path.dmaDataR

/-- `irq_o`. -/
def irqO (s : State) : Bool := s.irqR

end PdhCore
end PoundDreverHall
