import Mathlib.Data.BitVec

/-!
# RTL - command words and configuration registers of `pdh_core`

A command word has the layout `[31]=rst, [30]=strobe, [29:26]=cmd, [25:0]=data`.
The register file is recomputed from the latched word on every clock edge: each
register either takes its field of the word or keeps its value.
-/

namespace PoundDreverHall
namespace PdhCore

/-! ## Command words -/

/-- `cmd_t`; {lit}`unassigned` stands for the three codes without a command. -/
inductive Cmd where
  | idle
  | setLed
  | setDac
  | getAdc
  | checkSigned
  | setRotCoeffs
  | commitRotCoeffs
  | getFrame
  | setPidCoeffs
  | setNco
  | setFir
  | configDemod
  | configIo
  | unassigned
deriving DecidableEq, Repr

/-- The command of a code. -/
def Cmd.ofCode (code : BitVec 4) : Cmd :=
  match code with
  | 0b0000#4 => .idle
  | 0b0001#4 => .setLed
  | 0b0010#4 => .setDac
  | 0b0011#4 => .getAdc
  | 0b0100#4 => .checkSigned
  | 0b0101#4 => .setRotCoeffs
  | 0b0110#4 => .commitRotCoeffs
  | 0b0111#4 => .getFrame
  | 0b1000#4 => .setPidCoeffs
  | 0b1001#4 => .setNco
  | 0b1010#4 => .setFir
  | 0b1011#4 => .configDemod
  | 0b1110#4 => .configIo
  | _ => .unassigned

/-- Bit 31, the reset of the fabric. -/
def rstBit (w : BitVec 32) : Bool := w.getLsbD 31

/-- Bit 30, the strobe. -/
def strobeBit (w : BitVec 32) : Bool := w.getLsbD 30

/-- The code of the command. -/
def cmdCode (w : BitVec 32) : BitVec 4 := w.extractLsb' 26 4

/-- `cmd_w`. -/
def cmdW (w : BitVec 32) : Cmd := Cmd.ofCode (cmdCode w)

/-- `data_w`. -/
def dataW (w : BitVec 32) : BitVec 26 := w.extractLsb' 0 26

/-- `pid_coeff_sel_t`. -/
inductive PidCoeffSel where
  | kp
  | kd
  | ki
  | dec
  | sp
  | alpha
  | sat
  | en
  | gain
  | bias
  | egain
  | unassigned
deriving DecidableEq, Repr

/-- The PID register of a selector. -/
def PidCoeffSel.ofCode (code : BitVec 4) : PidCoeffSel :=
  match code with
  | 0b0000#4 => .kp
  | 0b0001#4 => .kd
  | 0b0010#4 => .ki
  | 0b0011#4 => .dec
  | 0b0100#4 => .sp
  | 0b0101#4 => .alpha
  | 0b0110#4 => .sat
  | 0b0111#4 => .en
  | 0b1000#4 => .gain
  | 0b1001#4 => .bias
  | 0b1010#4 => .egain
  | _ => .unassigned

/-- `pid_coeff_select_w`, as it appears on the bus. -/
def pidCoeffSelectCode (w : BitVec 32) : BitVec 4 := (dataW w).extractLsb' 16 4

/-- `pid_coeff_select_w`. -/
def pidCoeffSelectW (w : BitVec 32) : PidCoeffSel := PidCoeffSel.ofCode (pidCoeffSelectCode w)

/-- `nco_sel_t`. -/
inductive NcoSel where
  | stride
  | shift
  | inv
  | sub
  | en
  | unassigned
deriving DecidableEq, Repr

/-- `nco_coeff_select_w`. -/
def ncoCoeffSelectW (w : BitVec 32) : NcoSel :=
  match (dataW w).extractLsb' 16 3 with
  | 0b000#3 => .stride
  | 0b001#3 => .shift
  | 0b010#3 => .inv
  | 0b011#3 => .sub
  | 0b100#3 => .en
  | _ => .unassigned

/-- `fir_update_sel_t`. -/
inductive FirUpdateSel where
  | addr
  | coeff
  | inputSel
  | memWriteEn
  | chainWriteEn
  | unassigned
deriving DecidableEq, Repr

/-- `fir_update_sel_w`, as it appears on the bus. -/
def firUpdateSelCode (w : BitVec 32) : BitVec 3 := (dataW w).extractLsb' 16 3

/-- `fir_update_sel_w`. -/
def firUpdateSelW (w : BitVec 32) : FirUpdateSel :=
  match firUpdateSelCode w with
  | 0b000#3 => .addr
  | 0b001#3 => .coeff
  | 0b010#3 => .inputSel
  | 0b011#3 => .memWriteEn
  | 0b100#3 => .chainWriteEn
  | _ => .unassigned

/-! ## Configuration registers -/

/-- Registers written by commands on the rising edge. -/
structure Regs where
  ledR : BitVec 8
  sinThetaR : BitVec 16
  cosThetaR : BitVec 16
  rotSinThetaR : BitVec 16
  rotCosThetaR : BitVec 16
  dmaDecimationCodeR : BitVec 22
  frameCodeR : BitVec 4
  kpR : BitVec 16
  kdR : BitVec 16
  kiR : BitVec 16
  decR : BitVec 14
  spR : BitVec 14
  alphaR : BitVec 4
  satwidthR : BitVec 5
  pidEnableR : Bool
  gainR : BitVec 16
  egainR : BitVec 16
  biasR : BitVec 14
  ncoShiftR : BitVec 12
  ncoStrideR : BitVec 12
  ncoEnR : Bool
  ncoInvR : Bool
  ncoSubR : Bool
  dac1DatSelR : BitVec 3
  dac2DatSelR : BitVec 3
  pidSelR : BitVec 3
  demodRefSelR : Bool
  demodInSelR : BitVec 3
  demodLpfAlphaR : BitVec 4
  tapAddrR : BitVec 5
  tapCoeffR : BitVec 16
  tapMemWriteEnR : Bool
  tapChainWriteEnR : Bool
  firInputSelR : BitVec 3
deriving DecidableEq, Repr

/-- Values under reset. -/
def Regs.reset : Regs where
  ledR := 0#8
  sinThetaR := 0#16
  cosThetaR := 0x7FFF#16
  rotSinThetaR := 0#16
  rotCosThetaR := 0x7FFF#16
  dmaDecimationCodeR := 1#22
  frameCodeR := 0b0000#4
  kpR := 0#16
  kdR := 0#16
  kiR := 0#16
  decR := 1#14
  spR := 0#14
  alphaR := 4#4
  satwidthR := 31#5
  pidEnableR := false
  gainR := 1024#16
  egainR := 1024#16
  biasR := 0#14
  ncoShiftR := 0#12
  ncoStrideR := 1#12
  ncoEnR := false
  ncoInvR := false
  ncoSubR := false
  dac1DatSelR := 0#3
  dac2DatSelR := 0#3
  pidSelR := 0#3
  demodRefSelR := false
  demodInSelR := 0#3
  demodLpfAlphaR := 8#4
  tapAddrR := 0#5
  tapCoeffR := 0#16
  tapMemWriteEnR := false
  tapChainWriteEnR := false
  firInputSelR := 0#3

/-- The assignments `next_*_w`, `kp_w` to `bias_w`, `nco_*_w` and `tap_*_w` for the
latched word {lit}`w`. -/
def Regs.next (w : BitVec 32) (r : Regs) : Regs where
  ledR := if cmdW w = .setLed then (dataW w).extractLsb' 0 8 else r.ledR
  sinThetaR :=
    if cmdW w = .setRotCoeffs ∧ (dataW w).getLsbD 16 = true then (dataW w).extractLsb' 0 16
    else r.sinThetaR
  cosThetaR :=
    if cmdW w = .setRotCoeffs ∧ (dataW w).getLsbD 16 = false then (dataW w).extractLsb' 0 16
    else r.cosThetaR
  rotSinThetaR := if cmdW w = .commitRotCoeffs then r.sinThetaR else r.rotSinThetaR
  rotCosThetaR := if cmdW w = .commitRotCoeffs then r.cosThetaR else r.rotCosThetaR
  dmaDecimationCodeR :=
    if cmdW w = .getFrame then (dataW w).extractLsb' 0 22 else r.dmaDecimationCodeR
  frameCodeR := if cmdW w = .getFrame then (dataW w).extractLsb' 22 4 else r.frameCodeR
  kpR :=
    if cmdW w = .setPidCoeffs ∧ pidCoeffSelectW w = .kp then (dataW w).extractLsb' 0 16
    else r.kpR
  kdR :=
    if cmdW w = .setPidCoeffs ∧ pidCoeffSelectW w = .kd then (dataW w).extractLsb' 0 16
    else r.kdR
  kiR :=
    if cmdW w = .setPidCoeffs ∧ pidCoeffSelectW w = .ki then (dataW w).extractLsb' 0 16
    else r.kiR
  decR :=
    if cmdW w = .setPidCoeffs ∧ pidCoeffSelectW w = .dec then (dataW w).extractLsb' 0 14
    else r.decR
  spR :=
    if cmdW w = .setPidCoeffs ∧ pidCoeffSelectW w = .sp then (dataW w).extractLsb' 0 14
    else r.spR
  alphaR :=
    if cmdW w = .setPidCoeffs ∧ pidCoeffSelectW w = .alpha then (dataW w).extractLsb' 0 4
    else r.alphaR
  satwidthR :=
    if cmdW w = .setPidCoeffs ∧ pidCoeffSelectW w = .sat then (dataW w).extractLsb' 0 5
    else r.satwidthR
  pidEnableR :=
    if cmdW w = .setPidCoeffs ∧ pidCoeffSelectW w = .en then (dataW w).getLsbD 0
    else r.pidEnableR
  gainR :=
    if cmdW w = .setPidCoeffs ∧ pidCoeffSelectW w = .gain then (dataW w).extractLsb' 0 16
    else r.gainR
  egainR :=
    if cmdW w = .setPidCoeffs ∧ pidCoeffSelectW w = .egain then (dataW w).extractLsb' 0 16
    else r.egainR
  biasR :=
    if cmdW w = .setPidCoeffs ∧ pidCoeffSelectW w = .bias then -(dataW w).extractLsb' 0 14
    else r.biasR
  ncoShiftR :=
    if cmdW w = .setNco ∧ ncoCoeffSelectW w = .shift then (dataW w).extractLsb' 0 12
    else r.ncoShiftR
  ncoStrideR :=
    if cmdW w = .setNco ∧ ncoCoeffSelectW w = .stride then (dataW w).extractLsb' 0 12
    else r.ncoStrideR
  ncoEnR :=
    if cmdW w = .setNco ∧ ncoCoeffSelectW w = .en then (dataW w).getLsbD 0 else r.ncoEnR
  ncoInvR :=
    if cmdW w = .setNco ∧ ncoCoeffSelectW w = .inv then (dataW w).getLsbD 0 else r.ncoInvR
  ncoSubR :=
    if cmdW w = .setNco ∧ ncoCoeffSelectW w = .sub then (dataW w).getLsbD 0 else r.ncoSubR
  dac1DatSelR := if cmdW w = .configIo then (dataW w).extractLsb' 0 3 else r.dac1DatSelR
  dac2DatSelR := if cmdW w = .configIo then (dataW w).extractLsb' 3 3 else r.dac2DatSelR
  pidSelR := if cmdW w = .configIo then (dataW w).extractLsb' 6 3 else r.pidSelR
  demodRefSelR := if cmdW w = .configDemod then (dataW w).getLsbD 0 else r.demodRefSelR
  demodInSelR := if cmdW w = .configDemod then (dataW w).extractLsb' 1 3 else r.demodInSelR
  demodLpfAlphaR := if cmdW w = .configDemod then (dataW w).extractLsb' 4 4 else r.demodLpfAlphaR
  tapAddrR :=
    if cmdW w = .setFir ∧ firUpdateSelW w = .addr then (dataW w).extractLsb' 0 5 else r.tapAddrR
  tapCoeffR :=
    if cmdW w = .setFir ∧ firUpdateSelW w = .coeff then (dataW w).extractLsb' 0 16
    else r.tapCoeffR
  tapMemWriteEnR :=
    if cmdW w = .setFir ∧ firUpdateSelW w = .memWriteEn then (dataW w).getLsbD 0
    else r.tapMemWriteEnR
  tapChainWriteEnR :=
    if cmdW w = .setFir ∧ firUpdateSelW w = .chainWriteEn then (dataW w).getLsbD 0
    else r.tapChainWriteEnR
  firInputSelR :=
    if cmdW w = .setFir ∧ firUpdateSelW w = .inputSel then (dataW w).extractLsb' 0 3
    else r.firInputSelR

/-- The DAC registers, written on the falling edge. -/
structure DacRegs where
  dacSelR : Bool
  dac1DatR : BitVec 14
  dac2DatR : BitVec 14
deriving DecidableEq, Repr

/-- Values under reset: both outputs at `DAC_INIT`. -/
def DacRegs.reset : DacRegs where
  dacSelR := false
  dac1DatR := 8192#14
  dac2DatR := 8192#14

/-- `next_dac_sel_w`, `next_dac1_dat_w` and `next_dac2_dat_w`. -/
def DacRegs.next (w : BitVec 32) (d : DacRegs) : DacRegs where
  dacSelR := !d.dacSelR
  dac1DatR :=
    if cmdW w = .setDac ∧ (dataW w).getLsbD 14 = false then (dataW w).extractLsb' 0 14
    else d.dac1DatR
  dac2DatR :=
    if cmdW w = .setDac ∧ (dataW w).getLsbD 14 = true then (dataW w).extractLsb' 0 14
    else d.dac2DatR

end PdhCore
end PoundDreverHall
