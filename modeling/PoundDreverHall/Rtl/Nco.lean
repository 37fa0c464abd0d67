import PoundDreverHall.Rtl.Primitives

/-!
# RTL - `nco` and `sine_qtr_rom`

The oscillator accumulates a 14-bit phase, looks the magnitude of the sine up
in a quarter-wave ROM with a registered address and a registered output, and
applies the sign of the quadrant.  The contents of the ROM come from a memory
file, so they are a parameter of the model.
-/

namespace PoundDreverHall
namespace Nco

/-- Contents of `sine_qtr_rom`: 4096 entries of 16 bits. -/
abbrev Rom := BitVec 12 → BitVec 16

/-- Input ports. -/
structure Input where
  enableI : Bool
  rstI : Bool
  strideI : BitVec 12
  shiftI : BitVec 12
  invertI : Bool
  subI : Bool
deriving DecidableEq, Repr

/-- Registers; {lit}`dout1` and {lit}`dout2` are the output registers of the ROM. -/
structure State where
  strideR : BitVec 12
  shiftR : BitVec 12
  invertR : Bool
  subR : Bool
  phi1R : BitVec 14
  phi1Pipe1R : BitVec 14
  phi2Pipe1R : BitVec 14
  addr1R : BitVec 12
  addr2R : BitVec 12
  dout1 : BitVec 16
  dout2 : BitVec 16
  rom1SignedR : BitVec 16
  rom2SignedR : BitVec 16
deriving DecidableEq, Repr

/-! ## Combinational logic -/

/-- `state_t`. -/
inductive Quadrant where
  | q1
  | q2
  | q3
  | q4
deriving DecidableEq, Repr

/-- The quadrant of a phase, from its two top bits. -/
def quadrant (phi : BitVec 14) : Quadrant :=
  match phi.extractLsb' 12 2 with
  | 0b00#2 => .q1
  | 0b01#2 => .q2
  | 0b10#2 => .q3
  | 0b11#2 => .q4

/-- `next_phi1_w`. -/
def nextPhi1W (s : State) : BitVec 14 :=
  s.phi1R + s.strideR.setWidth 14

/-- `phi2_w`. -/
def phi2W (s : State) : BitVec 14 :=
  if s.subR then s.phi1R - s.shiftR.setWidth 14 else s.phi1R + s.shiftR.setWidth 14

/-- `addr1_w` and `addr2_w`: the ROM address of a phase, mirrored in the second
and fourth quadrants. -/
def romAddr (phi : BitVec 14) : BitVec 12 :=
  if quadrant phi = .q1 ∨ quadrant phi = .q3 then phi.extractLsb' 0 12
  else 4095#12 - phi.extractLsb' 0 12

/-- `rom1_signed_w` and `rom2_intermediate_w`: a ROM output, negated in the third
and fourth quadrants. -/
def romSigned (phi : BitVec 14) (lookup : BitVec 16) : BitVec 16 :=
  if quadrant phi = .q1 ∨ quadrant phi = .q2 then lookup else -lookup

/-- `rom2_signed_w`. -/
def rom2SignedW (s : State) : BitVec 16 :=
  if s.invertR then -romSigned s.phi2Pipe1R s.dout2 else romSigned s.phi2Pipe1R s.dout2

/-! ## Output ports -/

/-- `out1_o`. -/
def out1O (s : State) : BitVec 16 := s.rom1SignedR

/-- `out2_o`. -/
def out2O (s : State) : BitVec 16 := s.rom2SignedR

/-- `addr1_o`. -/
def addr1O (s : State) : BitVec 12 := s.addr1R

/-- `addr2_o`. -/
def addr2O (s : State) : BitVec 12 := s.addr2R

/-- `phi1_o`. -/
def phi1O (s : State) : BitVec 14 := s.phi1Pipe1R

/-- `phi2_o`. -/
def phi2O (s : State) : BitVec 14 := s.phi2Pipe1R

/-! ## Clocked behaviour -/

/-- Registers cleared by reset, and while the oscillator is disabled. -/
def cleared (s : State) : State :=
  { s with
    strideR := 0#12
    shiftR := 0#12
    invertR := false
    subR := false
    phi1R := 0#14
    phi1Pipe1R := 0#14
    phi2Pipe1R := 0#14
    addr1R := 0#12
    addr2R := 0#12
    rom1SignedR := 0#16
    rom2SignedR := 0#16 }

/-- One rising edge of {lit}`clk`.  The ROM has neither a reset nor an enable. -/
def step (rom : Rom) (i : Input) (s : State) : State :=
  { (if i.rstI then cleared s
      else if i.enableI then
        { s with
          strideR := i.strideI
          shiftR := i.shiftI
          invertR := i.invertI
          subR := i.subI
          phi1R := nextPhi1W s
          phi1Pipe1R := s.phi1R
          phi2Pipe1R := phi2W s
          addr1R := romAddr s.phi1Pipe1R
          addr2R := romAddr s.phi2Pipe1R
          rom1SignedR := romSigned s.phi1Pipe1R s.dout1
          rom2SignedR := rom2SignedW s }
      else cleared s) with
    dout1 := rom s.addr1R
    dout2 := rom s.addr2R }

/-- The state after a few edges under reset, with a ROM whose first entry is
zero in the output registers. -/
def resetState : State where
  strideR := 0#12
  shiftR := 0#12
  invertR := false
  subR := false
  phi1R := 0#14
  phi1Pipe1R := 0#14
  phi2Pipe1R := 0#14
  addr1R := 0#12
  addr2R := 0#12
  dout1 := 0#16
  dout2 := 0#16
  rom1SignedR := 0#16
  rom2SignedR := 0#16

end Nco
end PoundDreverHall
