import PoundDreverHall.Server.Handlers

/-!
# Server - `control.c`, single registers

The handlers of reset, the converters, the rotation, the oscillator, and the routing of
signals.  All but one of them start a command word from zero; `cmd_config_io` starts it
from what the stack holds.
-/

namespace PoundDreverHall
namespace Server

open Device SinglePrecision MixedPrecision

variable {F : Type} [MixedPrecision F]

/-! ## `cmd_reset_fpga` -/

/-- `cmd_reset_fpga`. -/
def cmdResetFpga : Routine (Reply F) := do
  let cmd := PdhCmdT.rst.set 1#1 0#32
  (Call.pdhSendCmd cmd).run
  let cmd := PdhCmdT.rst.set 0#1 cmd
  (Call.pdhSendCmd cmd).run
  let callback ← Call.pdhGetCallback.run
  let r : Reply F := ⟨0, []⟩
  return r.pushCtxCb (.uint callback) "RST_RAW_CB"

/-! ## `cmd_get_adc` -/

/-- The voltage of an ADC code. -/
def adcVolts (code : BitVec 32) : F :=
  mul (lit (-1)) (sub (mul (ofInt code.toNat) (div (lit 2) (lit 16383))) (lit 1))

/-- `cmd_get_adc`. -/
def cmdGetAdc : Routine (Reply F) := do
  let cmd := cmdWord .getAdc
  let callback ← pdhExecuteCmd cmd
  let echoAdc0Code : BitVec 32 := (PdhCallbackT.adc0Code.get callback).setWidth 32
  let echoAdc1Code : BitVec 32 := (PdhCallbackT.adc1Code.get callback).setWidth 32
  let echoCmd : BitVec 32 := (PdhCallbackT.cmd.get callback).setWidth 32
  let r : Reply F := ⟨0, []⟩
  let r := r.pushCtxCb (.uint echoAdc0Code) "IN1"
  let r := r.pushCtxCb (.uint echoAdc1Code) "IN2"
  let r := r.pushCtxCb (.float (adcVolts echoAdc0Code)) "IN1_V"
  let r := r.pushCtxCb (.float (adcVolts echoAdc1Code)) "IN2_V"
  let r := r.pushCtxCb (.uint echoCmd) "CMD_CB"
  return r.validateCmd callback cmd

/-! ## `cmd_check_signed` -/

/-- `check_signed_e`. -/
inductive CheckSignedE where
  | ok
  | invalidRegSelCb
deriving DecidableEq, Repr

/-- The return code. -/
def CheckSignedE.code : CheckSignedE → ℕ
  | .ok => 0
  | .invalidRegSelCb => 1

/-- A word that asks for the register {lit}`regSel`. -/
def checkSignedWord (regSel : BitVec 5) : BitVec 32 :=
  PdhCmdT.regSel.set regSel (cmdWord .checkSigned)

/-- `cmd_check_signed`. -/
def cmdCheckSigned (ctx : CmdCtx F) : Routine (Reply F) := do
  let regSel := ctx.uintArgs 0
  let cmd := checkSignedWord (regSel.setWidth 5)
  let callback ← pdhExecuteCmd cmd
  let echoRegSel : BitVec 32 := (PdhCallbackT.regSel.get callback).setWidth 32
  let echoPayload32 : BitVec 32 := (PdhCallbackT.payload.get callback).signExtend 32
  let echoCmd : BitVec 32 := (PdhCallbackT.cmd.get callback).setWidth 32
  let r : Reply F := ⟨CheckSignedE.ok.code, []⟩
  let r := r.pushCtxCb (.uint echoRegSel) "REG_SEL_CB"
  let r := r.pushCtxCb (.int echoPayload32) "REG_VALUE_CB"
  let r := r.pushCtxCb (.uint echoCmd) "CMD_CB"
  let r := r.validate echoRegSel regSel CheckSignedE.invalidRegSelCb.code
  return r.validateCmd callback cmd

/-! ## `cmd_set_dac` -/

/-- `set_dac_e`. -/
inductive SetDacE where
  | ok
  | invalidCode
deriving DecidableEq, Repr

/-- The return code. -/
def SetDacE.code : SetDacE → ℕ
  | .ok => 0
  | .invalidCode => 1

/-- The code of a voltage: negated, clamped to one volt, and scaled to 14 bits. -/
def dacCodeOf (val : F) : BitVec 32 :=
  let val := mul val (lit (-1))
  let val := if lt (lit 1) val then lit 1 else val
  let val := if lt val (lit (-1)) then lit (-1) else val
  let y := mul (add val (lit 1)) (lit (1 / 2))
  clamp 0 16383 (lrintf (mul y (lit 16383)))

/-- The word that sets a converter. -/
def setDacWord (sel : BitVec 1) (code : BitVec 14) : BitVec 32 :=
  PdhCmdT.dacSel.set sel (PdhCmdT.dacCode.set code (cmdWord .setDac))

/-- `cmd_set_dac`. -/
def cmdSetDac (ctx : CmdCtx F) : Routine (Reply F) := do
  let dacSel := ctx.uintArgs 0 != 0#32
  let code := dacCodeOf (ctx.floatArgs 0)
  let cmd := setDacWord (BitVec.ofBool dacSel) (code.setWidth 14)
  let callback ← pdhExecuteCmd cmd
  let echoDac1Code : BitVec 32 := (PdhCallbackT.dac1Code.get callback).setWidth 32
  let echoDac2Code : BitVec 32 := (PdhCallbackT.dac2Code.get callback).setWidth 32
  let r : Reply F := ⟨SetDacE.ok.code, []⟩
  let r := r.pushCtxCb (.uint echoDac1Code) "DAC1_CODE_CB"
  let r := r.pushCtxCb (.uint echoDac2Code) "DAC2_CODE_CB"
  let r := r.validate (if dacSel then echoDac2Code else echoDac1Code) code SetDacE.invalidCode.code
  return r.validateCmd callback cmd

/-! ## `cmd_set_rot` -/

/-- `set_rot_e`. -/
inductive SetRotE where
  | ok
  | invalidCos
  | invalidSin
deriving DecidableEq, Repr

/-- The return code. -/
def SetRotE.code : SetRotE → ℕ
  | .ok => 0
  | .invalidCos => 1
  | .invalidSin => 2

/-- `M_PI`. -/
def mPi : Double F := doubleLit (314159265358979323846 / 10 ^ 20)

/-- `M_PI_2`. -/
def mPi2 : Double F := doubleLit (157079632679489661923 / 10 ^ 20)

/-- The angle, clamped to half a turn. -/
def clampAngle (thetaRad : F) : F :=
  let thetaRad := if doubleLt mPi (widen thetaRad) then narrow mPi else thetaRad
  let lowest : Double F := doubleMul (widen (lit (-1))) mPi
  if doubleLt (widen thetaRad) lowest then narrow lowest else thetaRad

/-- The word of one coefficient of the rotation, with its strobe. -/
def setRotWord (strobe : BitVec 1) (select : BitVec 1) (payload : BitVec 16) : BitVec 32 :=
  PdhCmdT.strobe.set strobe
    (PdhCmdT.rotSelect.set select (PdhCmdT.rotPayload.set payload (cmdWord .setRotCoeffs)))

/-- A coefficient as the callback shows it, without its two low bits. -/
def approx (q15 : BitVec 16) : BitVec 16 := (q15 >>> 2) <<< 2

/-- `cmd_set_rot`. -/
def cmdSetRot (ctx : CmdCtx F) : Routine (Reply F) := do
  let thetaRad := clampAngle (ctx.floatArgs 0)
  let cQ15 := floatToQ15 (cosf thetaRad)
  let sQ15 := floatToQ15 (sinf thetaRad)
  (Call.pdhSendCmd (setRotWord 0#1 0#1 cQ15)).run
  (Call.pdhSendCmd (setRotWord 1#1 0#1 cQ15)).run
  (Call.pdhSendCmd (setRotWord 0#1 1#1 sQ15)).run
  (Call.pdhSendCmd (setRotWord 1#1 1#1 sQ15)).run
  let cb ← Call.pdhGetCallback.run
  let approxCosR : BitVec 16 := (PdhCallbackT.cosThetaR.get cb).setWidth 16 <<< 2
  let approxSinR : BitVec 16 := (PdhCallbackT.sinThetaR.get cb).setWidth 16 <<< 2
  let r : Reply F := ⟨SetRotE.ok.code, []⟩
  let r := r.validate approxCosR (approx cQ15) SetRotE.invalidCos.code
  let r := r.validate approxSinR (approx sQ15) SetRotE.invalidSin.code
  let r := r.pushCtxCb (.float (div (ofInt approxCosR.toInt) (lit 32768))) "COS_CB"
  let r := r.pushCtxCb (.float (div (ofInt approxSinR.toInt) (lit 32768))) "SIN_CB"
  let cb ← pdhExecuteCmd (cmdWord .commitRotCoeffs)
  let iFeed : BitVec 16 := (PdhCallbackT.iFeed.get cb).setWidth 16 <<< 2
  let qFeed : BitVec 16 := (PdhCallbackT.qFeed.get cb).setWidth 16 <<< 2
  let r := r.pushCtxCb (.float (div (ofInt iFeed.toInt) (lit 8192))) "I_FEED_CB"
  return r.pushCtxCb (.float (div (ofInt qFeed.toInt) (lit 8192))) "Q_FEED_CB"

/-! ## `cmd_set_nco` -/

/-- `set_nco_e`. -/
inductive SetNcoE where
  | ok
  | invalidFreq
  | invalidShift
  | invalidStrideCb
  | invalidShiftCb
  | invalidSubCb
  | invalidInvCb
  | invalidEnCb
deriving DecidableEq, Repr

/-- The return code. -/
def SetNcoE.code : SetNcoE → ℕ
  | .ok => 0
  | .invalidFreq => 1
  | .invalidShift => 2
  | .invalidStrideCb => 3
  | .invalidShiftCb => 4
  | .invalidSubCb => 5
  | .invalidInvCb => 6
  | .invalidEnCb => 7

/-- `ABS` on a {lit}`long`. -/
def absLong (x : BitVec 32) : BitVec 32 :=
  if BitVec.slt 0#32 x then x else -x

/-- `STRIDE_CONST`. -/
def strideConst : Double F := doubleLit (762939453125 / 10 ^ 8)

/-- The stride of a frequency. -/
def strideOf (freq : F) : BitVec 32 :=
  absLong (lrintf (narrow (doubleDiv (widen freq) strideConst) : F))

/-- An angle in radians. -/
def shiftRad (shiftDeg : F) : F :=
  narrow (doubleMul (doubleDiv (widen shiftDeg) (doubleLit 180)) mPi)

/-- The phase shift as the oscillator takes it: a quarter turn, subtracted or not, and
inverted or not. -/
structure Quadrant where
  shiftInt : BitVec 32
  sub : BitVec 32
  inv : BitVec 32
deriving DecidableEq, Repr

/-- The reduction of the phase shift. -/
def quadrant (rad : F) : Quadrant :=
  let rad :=
    if lt rad (lit 0) then narrow (doubleAdd (widen rad) (doubleMul (doubleLit 2) mPi)) else rad
  let upper := doubleLt mPi (widen rad)
  let rad := if upper then narrow (doubleSub (widen rad) mPi) else rad
  let inv := if upper then ~~~0#32 else 0#32
  let second := doubleLt mPi2 (widen rad)
  let rad : F := if second then narrow (doubleNeg (doubleSub (widen rad) mPi)) else rad
  let inv := if second then ~~~inv else inv
  let scaled : F := narrow (doubleMul (doubleDiv (widen rad) mPi2) (doubleLit 4095))
  { shiftInt := absLong (lrintf scaled)
    sub := if second then 1#32 else 0#32
    inv := inv &&& 1#32 }

/-- The word that writes {lit}`payload` to the register {lit}`sel`. -/
def setNcoWord (sel : NcoCoeffSelE) (payload : BitVec 16) : BitVec 32 :=
  PdhCmdT.payload.set payload (PdhCmdT.ncoCoeffSel.set sel.code (cmdWord .setNco))

/-- The range checks at the head of `cmd_set_nco`; the second one overrides the first. -/
def ncoArgsCode (ctx : CmdCtx F) : SetNcoE :=
  let stride := strideOf (ctx.floatArgs 0)
  let rad := shiftRad (mul (ctx.floatArgs 1) (lit (-1)))
  if doubleLt mPi (widen rad) || doubleLt (widen rad) (doubleNeg mPi) then .invalidShift
  else if 1024#32 < stride ∨ stride < 1#32 then .invalidFreq
  else .ok

/-- The four values computed from the echoes. -/
def Reply.pushNcoValues (r : Reply F) (freq shiftDeg : F) (q : Quadrant)
    (echoStride echoShift : BitVec 32) : Reply F :=
  let fractional : F :=
    narrow (doubleDiv (doubleMul mPi2 (doubleOfInt echoShift.toNat)) (widen (lit 4095)))
  let fractional := if q.sub ≠ 0#32 then mul fractional (lit (-1)) else fractional
  let fractional := if q.inv ≠ 0#32 then narrow (doubleAdd (widen fractional) mPi) else fractional
  let fractional :=
    if doubleLt mPi (widen fractional) then
      narrow (doubleSub (widen fractional) (doubleMul (widen (lit 2)) mPi))
    else fractional
  let degrees : F := narrow (doubleDiv (doubleMul (doubleLit (-180)) (widen fractional)) mPi)
  let echoFreq : F := narrow (doubleMul (doubleOfInt echoStride.toNat) strideConst)
  let r := r.pushCtxCb (.float degrees) "REGISTERED_PHASE_SHIFT"
  let r := r.pushCtxCb (.float (sub (neg shiftDeg) degrees)) "REGISTERED_SHIFT_ERROR"
  let r := r.pushCtxCb (.float echoFreq) "REGISTERED_FREQ"
  r.pushCtxCb (.float (sub freq echoFreq)) "REGISTERED_FREQ_ERROR"

/-- `cmd_set_nco`. -/
def cmdSetNco (ctx : CmdCtx F) : Routine (Reply F) := do
  if ncoArgsCode ctx ≠ .ok then
    return ⟨(ncoArgsCode ctx).code, []⟩
  else
    let freq := ctx.floatArgs 0
    let shiftDeg := mul (ctx.floatArgs 1) (lit (-1))
    let en := ctx.uintArgs 0
    let stride := strideOf freq
    let q := quadrant (shiftRad shiftDeg)
    let _ ← pdhExecuteCmd (setNcoWord .en 0#16)
    let _ ← pdhExecuteCmd (setNcoWord .stride (stride.setWidth 16))
    let _ ← pdhExecuteCmd (setNcoWord .shift (q.shiftInt.setWidth 16))
    let _ ← pdhExecuteCmd (setNcoWord .inv (q.inv.setWidth 16))
    let _ ← pdhExecuteCmd (setNcoWord .sub (q.sub.setWidth 16))
    let cb ← pdhExecuteCmd (setNcoWord .en (en.setWidth 16))
    let echoStride : BitVec 32 := (PdhCallbackT.ncoStrideR.get cb).setWidth 32
    let echoShift : BitVec 32 := (PdhCallbackT.ncoShiftR.get cb).setWidth 32
    let echoSub : BitVec 32 := (PdhCallbackT.ncoSubR.get cb).setWidth 32
    let echoInv : BitVec 32 := (PdhCallbackT.ncoInvR.get cb).setWidth 32
    let echoEn : BitVec 32 := (PdhCallbackT.ncoEnR.get cb).setWidth 32
    let r : Reply F := ⟨SetNcoE.ok.code, []⟩
    let r := r.validate echoStride stride SetNcoE.invalidStrideCb.code
    let r := r.pushCtxCb (.uint echoStride) "STRIDE_CB"
    let r := r.validate echoShift q.shiftInt SetNcoE.invalidShiftCb.code
    let r := r.pushCtxCb (.uint echoShift) "SHIFT_CB"
    let r := r.validate echoSub q.sub SetNcoE.invalidSubCb.code
    let r := r.pushCtxCb (.uint echoSub) "SUB_CB"
    let r := r.validate echoInv q.inv SetNcoE.invalidInvCb.code
    let r := r.pushCtxCb (.uint echoInv) "INV_CB"
    let r := r.validate echoEn en SetNcoE.invalidEnCb.code
    let r := r.pushCtxCb (.uint echoEn) "EN_CB"
    return r.pushNcoValues freq shiftDeg q echoStride echoShift

/-! ## `cmd_config_io` -/

/-- `config_io_e`. -/
inductive ConfigIoE where
  | ok
  | invalidDac1
  | invalidDac2
  | invalidPid
  | dac1CbFail
  | dac2CbFail
  | pidCbFail
deriving DecidableEq, Repr

/-- The return code. -/
def ConfigIoE.code : ConfigIoE → ℕ
  | .ok => 0
  | .invalidDac1 => 1
  | .invalidDac2 => 2
  | .invalidPid => 3
  | .dac1CbFail => 4
  | .dac2CbFail => 5
  | .pidCbFail => 6

/-- The range checks at the head of `cmd_config_io`; a later one overrides an earlier one. -/
def ioArgsCode (ctx : CmdCtx F) : ConfigIoE :=
  if 6#32 < ctx.uintArgs 2 then .invalidPid
  else if 3#32 < ctx.uintArgs 1 then .invalidDac2
  else if 3#32 < ctx.uintArgs 0 then .invalidDac1
  else .ok

/-- The fields of `config_io_cmd`, assigned to the word {lit}`cmd`. -/
def configIoWord (dac1 dac2 pid : BitVec 3) (cmd : BitVec 32) : BitVec 32 :=
  PdhCmdT.pidDatSel.set pid (PdhCmdT.dac2DatSel.set dac2 (PdhCmdT.dac1DatSel.set dac1
    (PdhCmdT.cmd.set PdhCmdE.configIo.code cmd)))

/-- `cmd_config_io`.  The variable {lit}`cmd` is not initialised: the parameter is what it
holds before the fields are assigned. -/
def cmdConfigIo (cmd : BitVec 32) (ctx : CmdCtx F) : Routine (Reply F) := do
  if ioArgsCode ctx ≠ .ok then
    return ⟨(ioArgsCode ctx).code, []⟩
  else
    let dac1Code := ctx.uintArgs 0
    let dac2Code := ctx.uintArgs 1
    let pidCode := ctx.uintArgs 2
    let cmd := configIoWord (dac1Code.setWidth 3) (dac2Code.setWidth 3) (pidCode.setWidth 3) cmd
    let cb ← pdhExecuteCmd cmd
    let echoDac1 : BitVec 32 := (PdhCallbackT.dac1DatSelR.get cb).setWidth 32
    let echoDac2 : BitVec 32 := (PdhCallbackT.dac2DatSelR.get cb).setWidth 32
    let echoPid : BitVec 32 := (PdhCallbackT.pidDatSelR.get cb).setWidth 32
    let r : Reply F := ⟨ConfigIoE.ok.code, []⟩
    let r := r.validate echoDac1 dac1Code ConfigIoE.dac1CbFail.code
    let r := r.validate echoDac2 dac2Code ConfigIoE.dac2CbFail.code
    let r := r.validate echoPid pidCode ConfigIoE.pidCbFail.code
    let r := r.validateCmd cb cmd
    let r := r.pushCtxCb (.uint echoDac1) "DAC1_DAT_SEL_CB"
    let r := r.pushCtxCb (.uint echoDac2) "DAC2_DAT_SEL_CB"
    return r.pushCtxCb (.uint echoPid) "PID_DAT_SEL_CB"

/-! ## `cmd_config_demod` -/

/-- `config_demod_e`. -/
inductive ConfigDemodE where
  | ok
  | invalidRef
  | invalidIn
  | refCbFail
  | inCbFail
  | alphaCbFail
deriving DecidableEq, Repr

/-- The return code. -/
def ConfigDemodE.code : ConfigDemodE → ℕ
  | .ok => 0
  | .invalidRef => 1
  | .invalidIn => 2
  | .refCbFail => 3
  | .inCbFail => 4
  | .alphaCbFail => 5

/-- The word that configures the demodulator. -/
def configDemodWord (refSel : BitVec 1) (inSel : BitVec 3) (lpfAlpha : BitVec 4) : BitVec 32 :=
  PdhCmdT.lpfAlpha.set lpfAlpha (PdhCmdT.inSel.set inSel (PdhCmdT.refSel.set refSel
    (cmdWord .configDemod)))

/-- `cmd_config_demod`. -/
def cmdConfigDemod (ctx : CmdCtx F) : Routine (Reply F) := do
  let refSel := ctx.uintArgs 0
  let inSel := ctx.uintArgs 1
  let lpfAlpha := ctx.uintArgs 2 &&& 0xF#32
  if 1#32 < refSel then
    return ⟨ConfigDemodE.invalidRef.code, []⟩
  else if 6#32 < inSel then
    return ⟨ConfigDemodE.invalidIn.code, []⟩
  else
    let cmd := configDemodWord (refSel.setWidth 1) (inSel.setWidth 3) (lpfAlpha.setWidth 4)
    let cb ← pdhExecuteCmd cmd
    let echoRef : BitVec 32 := (PdhCallbackT.refSelR.get cb).setWidth 32
    let echoIn : BitVec 32 := (PdhCallbackT.inSelR.get cb).setWidth 32
    let echoAlpha : BitVec 32 := (PdhCallbackT.lpfAlphaR.get cb).setWidth 32
    let r : Reply F := ⟨ConfigDemodE.ok.code, []⟩
    let r := r.validate echoRef refSel ConfigDemodE.refCbFail.code
    let r := r.validate echoIn inSel ConfigDemodE.inCbFail.code
    let r := r.validate echoAlpha lpfAlpha ConfigDemodE.alphaCbFail.code
    let r := r.validateCmd cb cmd
    let r := r.pushCtxCb (.uint echoRef) "REF_SEL_CB"
    let r := r.pushCtxCb (.uint echoIn) "IN_SEL_CB"
    return r.pushCtxCb (.uint echoAlpha) "LPF_ALPHA_CB"

/-! ## `cmd_test_frame` -/

/-- `cmd_test_frame`, which does nothing. -/
def cmdTestFrame : Routine (Reply F) :=
  pure ⟨0, []⟩

end Server
end PoundDreverHall
