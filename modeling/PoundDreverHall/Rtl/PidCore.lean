import PoundDreverHall.Rtl.Primitives

/-!
# RTL - `pid_core`

A fixed-point PID controller with input and output gain, decimation, an
exponential filter for the derivative and a saturating integrator.  Every
definition has the width the source gives it; sums and products are formed at
the width of their context, and unsized literals make a comparison 32 bits wide.
-/

namespace PoundDreverHall
namespace PidCore

/-- Input ports. -/
structure Input where
  rst : Bool
  kpI : BitVec 16
  kdI : BitVec 16
  kiI : BitVec 16
  decimateI : BitVec 14
  spI : BitVec 14
  alphaI : BitVec 4
  satwidthI : BitVec 5
  datI : BitVec 16
  enableI : Bool
  gainI : BitVec 16
  egainI : BitVec 16
  biasI : BitVec 14
deriving DecidableEq, Repr

/-- Registers. -/
structure State where
  kpR : BitVec 16
  kdR : BitVec 16
  kiR : BitVec 16
  gainR : BitVec 16
  egainR : BitVec 16
  biasR : BitVec 14
  spR : BitVec 14
  alphaR : BitVec 4
  satwidthR : BitVec 5
  decimateR : BitVec 14
  cntR : BitVec 14
  tick1R : Bool
  tick2R : Bool
  errorPipe1R : BitVec 16
  sumErrorR : BitVec 32
  ykR : BitVec 16
  pErrorR : BitVec 32
  dErrorR : BitVec 32
  iErrorR : BitVec 48
deriving DecidableEq, Repr

/-! ## Saturation functions -/

/-- `apply_satwidth_truncation`. -/
def applySatwidthTruncation (x : BitVec 33) (threshold : BitVec 32) : BitVec 32 :=
  if BitVec.sle (0#1 ++ threshold) x then threshold - 1#32
  else if BitVec.sle x (1#1 ++ -threshold) then -threshold + 1#32
  else x.setWidth 32

/-- `sat_unsigned_from_signed`. -/
def satUnsignedFromSigned (x : BitVec 20) : BitVec 14 :=
  if BitVec.slt 0x03FFF#20 x then 0x3FFF#14
  else if x.msb then 0#14
  else x.setWidth 14

/-- `sat20_from_26`. -/
def sat20From26 (x : BitVec 26) : BitVec 20 :=
  if BitVec.slt 524287#26 x then 524287#20
  else if BitVec.slt x (-524288#26) then -524288#20
  else x.setWidth 20

/-- `sat16_from_22`. -/
def sat16From22 (x : BitVec 22) : BitVec 16 :=
  if BitVec.slt 32767#22 x then 32767#16
  else if BitVec.slt x (-32768#22) then -32768#16
  else x.setWidth 16

/-! ## Combinational logic -/

/-- `next_cnt_w`. -/
def nextCntW (s : State) : BitVec 14 :=
  if s.decimateR.setWidth 32 - 1#32 ≤ s.cntR.setWidth 32 then 0#14 else s.cntR + 1#14

/-- `tick1_w`. -/
def tick1W (i : Input) (s : State) : Bool :=
  i.enableI && s.cntR == 0#14

/-- `error_w`. -/
def errorW (i : Input) (s : State) : BitVec 16 :=
  i.datI - s.spR.signExtend 16

/-- `egain_prod_w`. -/
def egainProdW (i : Input) (s : State) : BitVec 32 :=
  (errorW i s).signExtend 32 * s.egainR.signExtend 32

/-- `egain_shifted_w`. -/
def egainShiftedW (i : Input) (s : State) : BitVec 22 :=
  (egainProdW i s).extractLsb' 10 22

/-- `error_gained_w`. -/
def errorGainedW (i : Input) (s : State) : BitVec 16 :=
  sat16From22 (egainShiftedW i s)

/-- `sat_threshold_w`. -/
def satThresholdW (s : State) : BitVec 32 :=
  1#32 <<< s.satwidthR

/-- `sum_error_wide_w`. -/
def sumErrorWideW (i : Input) (s : State) : BitVec 33 :=
  s.sumErrorR.signExtend 33 + (errorGainedW i s).signExtend 33

/-- `sum_error1_w`. -/
def sumError1W (i : Input) (s : State) : BitVec 32 :=
  applySatwidthTruncation (sumErrorWideW i s) (satThresholdW s)

/-- `p_error_shifted_w`. -/
def pErrorShiftedW (s : State) : BitVec 16 :=
  s.pErrorR.extractLsb' 15 16

/-- `d_error_shifted_w`. -/
def dErrorShiftedW (s : State) : BitVec 16 :=
  s.dErrorR.extractLsb' 15 16

/-- `i_error_shifted_w`. -/
def iErrorShiftedW (s : State) : BitVec 16 :=
  (s.iErrorR.sshiftRight s.satwidthR.toNat).setWidth 16

/-- `total_error_wide_w`. -/
def totalErrorWideW (s : State) : BitVec 20 :=
  (pErrorShiftedW s).signExtend 20 + (dErrorShiftedW s).signExtend 20 +
    (iErrorShiftedW s).signExtend 20

/-- `gain_prod_w`. -/
def gainProdW (s : State) : BitVec 36 :=
  (totalErrorWideW s).signExtend 36 * s.gainR.signExtend 36

/-- `gain_shifted_w`. -/
def gainShiftedW (s : State) : BitVec 26 :=
  (gainProdW s).extractLsb' 10 26

/-- `gained_wide_w`. -/
def gainedWideW (s : State) : BitVec 20 :=
  sat20From26 (gainShiftedW s)

/-- `pid_out`. -/
def pidOut (s : State) : BitVec 14 :=
  satUnsignedFromSigned (gainedWideW s + 8191#20 + s.biasR.signExtend 20)

/-- `sum_error2_w`: the sum is not updated when the output is saturated in the
direction of the update. -/
def sumError2W (i : Input) (s : State) : BitVec 32 :=
  if s.tick1R && !(pidOut s == 0x3FFF#14 && BitVec.slt s.sumErrorR (sumError1W i s)) &&
      !(pidOut s == 0#14 && BitVec.slt (sumError1W i s) s.sumErrorR) then
    sumError1W i s
  else s.sumErrorR

/-- `err_minus_ema_w`. -/
def errMinusEmaW (i : Input) (s : State) : BitVec 16 :=
  errorGainedW i s - s.ykR

/-- `yk_w`. -/
def ykW (i : Input) (s : State) : BitVec 16 :=
  if s.tick1R then (errMinusEmaW i s).sshiftRight s.alphaR.toNat + s.ykR else s.ykR

/-- `p_error_w`. -/
def pErrorW (s : State) : BitVec 32 :=
  if s.tick2R then s.kpR.signExtend 32 * s.errorPipe1R.signExtend 32 else s.pErrorR

/-- `d_error_w`. -/
def dErrorW (i : Input) (s : State) : BitVec 32 :=
  if s.tick2R then s.kdR.signExtend 32 * (errMinusEmaW i s).signExtend 32 else s.dErrorR

/-- `i_error_w`. -/
def iErrorW (s : State) : BitVec 48 :=
  if s.tick2R then s.kiR.signExtend 48 * s.sumErrorR.signExtend 48 else s.iErrorR

/-- `next_satwidth_w`. -/
def nextSatwidthW (i : Input) : BitVec 5 :=
  if 15#5 ≤ i.satwidthI then i.satwidthI else 31#5

/-! ## Output taps -/

/-- `err_tap`. -/
def errTap (s : State) : BitVec 16 := s.errorPipe1R

/-- `perr_tap`. -/
def perrTap (s : State) : BitVec 16 := pErrorShiftedW s

/-- `derr_tap`. -/
def derrTap (s : State) : BitVec 16 := dErrorShiftedW s

/-- `ierr_tap`. -/
def ierrTap (s : State) : BitVec 16 := iErrorShiftedW s

/-- `sum_err_tap`. -/
def sumErrTap (i : Input) (s : State) : BitVec 32 := sumError2W i s

/-! ## Clocked behaviour -/

/-- Registers under reset. -/
def resetState : State where
  kpR := 0#16
  kdR := 0#16
  kiR := 0#16
  gainR := 1024#16
  egainR := 1024#16
  biasR := 0#14
  spR := 0#14
  alphaR := 0#4
  satwidthR := 31#5
  decimateR := 1#14
  cntR := 0#14
  tick1R := false
  tick2R := false
  errorPipe1R := 0#16
  sumErrorR := 0#32
  ykR := 0#16
  pErrorR := 0#32
  dErrorR := 0#32
  iErrorR := 0#48

/-- One rising edge of {lit}`clk`.  A disabled controller keeps its settings and
clears its state. -/
def step (i : Input) (s : State) : State :=
  if i.rst then resetState
  else if i.enableI then
    { kpR := i.kpI
      kdR := i.kdI
      kiR := i.kiI
      gainR := i.gainI
      egainR := i.egainI
      biasR := i.biasI
      spR := i.spI
      alphaR := i.alphaI
      satwidthR := nextSatwidthW i
      decimateR := if i.decimateI < 1#14 then 1#14 else i.decimateI
      cntR := nextCntW s
      tick1R := tick1W i s
      tick2R := s.tick1R
      errorPipe1R := errorGainedW i s
      sumErrorR := sumError2W i s
      ykR := ykW i s
      pErrorR := pErrorW s
      dErrorR := dErrorW i s
      iErrorR := iErrorW s }
  else
    { s with
      cntR := 0#14
      tick1R := false
      tick2R := false
      errorPipe1R := 0#16
      sumErrorR := 0#32
      ykR := 0#16
      pErrorR := 0#32
      dErrorR := 0#32
      iErrorR := 0#48 }

end PidCore
end PoundDreverHall
