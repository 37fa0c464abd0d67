import PoundDreverHall.Server.Context

/-!
# Server - `control.c`

The handlers of the LED, the controller, the filter and the frame.  A handler
builds command words field by field, strobes them one after the other, and
checks every echo; no echo stops it.
-/

namespace PoundDreverHall
namespace Server

open Device SinglePrecision

variable {F : Type} [SinglePrecision F]

/-- A command word of which only the command is set. -/
def cmdWord (cmd : PdhCmdE) : BitVec 32 :=
  PdhCmdT.cmd.set cmd.code 0#32

/-- The `cmd` field of a callback, checked by most handlers. -/
def Reply.validateCmd (r : Reply F) (cb cmd : BitVec 32) : Reply F :=
  r.validate (PdhCallbackT.cmd.get cb) (PdhCmdT.cmd.get cmd) 1

/-! ## `cmd_set_led` -/

/-- `set_led_e`. -/
inductive SetLedE where
  | ok
  | invalidLed
  | invalidLedCb
deriving DecidableEq, Repr

/-- The return code. -/
def SetLedE.code : SetLedE → ℕ
  | .ok => 0
  | .invalidLed => 1
  | .invalidLedCb => 2

/-- `cmd_set_led`. -/
def cmdSetLed (ctx : CmdCtx F) : Routine (Reply F) := do
  let ledCode := ctx.uintArgs 0
  if 255#32 < ledCode then
    return ⟨SetLedE.invalidLed.code, []⟩
  else
    let cmd := PdhCmdT.ledCode.set (ledCode.setWidth 8) (cmdWord .setLed)
    let callback ← pdhExecuteCmd cmd
    let echoCode : BitVec 32 := (PdhCallbackT.funcCallback.get callback).setWidth 32
    let echoCmd : BitVec 32 := (PdhCallbackT.cmd.get callback).setWidth 32
    let r : Reply F := ⟨SetLedE.ok.code, []⟩
    let r := r.pushCtxCb (.uint echoCode) "LED_CODE_CB"
    let r := r.pushCtxCb (.uint echoCmd) "CMD_CB"
    let r := r.validate echoCode ledCode SetLedE.invalidLedCb.code
    return r.validateCmd callback cmd

/-! ## `cmd_set_pid` -/

/-- `set_pid_e`. -/
inductive SetPidE where
  | ok
  | invalidKp
  | invalidKd
  | invalidKi
  | invalidSp
  | invalidDec
  | invalidAlpha
  | invalidSat
  | invalidEn
  | invalidGain
  | invalidBias
  | invalidEgain
deriving DecidableEq, Repr

/-- The return code. -/
def SetPidE.code : SetPidE → ℕ
  | .ok => 0
  | .invalidKp => 1
  | .invalidKd => 2
  | .invalidKi => 3
  | .invalidSp => 4
  | .invalidDec => 5
  | .invalidAlpha => 6
  | .invalidSat => 7
  | .invalidEn => 8
  | .invalidGain => 9
  | .invalidBias => 10
  | .invalidEgain => 11

/-- The register values of a request, after rounding and clamping. -/
structure PidRequest where
  kpI : BitVec 16
  kdI : BitVec 16
  kiI : BitVec 16
  spI : BitVec 16
  gainI : BitVec 16
  egainI : BitVec 16
  biasI : BitVec 16
  dec : BitVec 32
  alpha : BitVec 32
  sat : BitVec 32
  en : BitVec 32
deriving DecidableEq, Repr

/-- The conversions at the head of `cmd_set_pid`. -/
def PidRequest.ofCtx (ctx : CmdCtx F) : PidRequest where
  kpI := floatToQ15 (ctx.floatArgs 0)
  kdI := floatToQ15 (ctx.floatArgs 1)
  kiI := floatToQ15 (ctx.floatArgs 2)
  spI := (clamp (-8192) 8191 (lrintf (mul (ctx.floatArgs 3) (lit 8192)))).setWidth 16
  gainI := (clamp (-32768) 32767 (lrintf (mul (ctx.floatArgs 4) (lit 1024)))).setWidth 16
  egainI := (clamp (-32768) 32767 (lrintf (mul (ctx.floatArgs 6) (lit 1024)))).setWidth 16
  biasI := (clamp (-8191) 8191 (lrintf (mul (ctx.floatArgs 5) (lit 8191)))).setWidth 16
  dec := if 0x3FFF#32 < ctx.uintArgs 0 then 0x3FFF#32 else ctx.uintArgs 0
  alpha := if 15#32 < ctx.uintArgs 1 then 15#32 else ctx.uintArgs 1
  sat := if 31#32 < ctx.uintArgs 2 then 31#32 else ctx.uintArgs 2
  en := ctx.uintArgs 3

/-- The word that writes {lit}`payload` to the register {lit}`sel`. -/
def setPidWord (sel : PidCoeffSelE) (payload : BitVec 16) : BitVec 32 :=
  PdhCmdT.coeffSel.set sel.code (PdhCmdT.payload.set payload (cmdWord .setPidCoeffs))

/-- One write of a signed value, whose echo is reported in units of {lit}`1 / scale`. -/
def setPidInt16 (sel : PidCoeffSelE) (value : BitVec 16) (scale : ℚ) (name : String)
    (fail : SetPidE) (r : Reply F) : Routine (Reply F) := do
  let cb ← pdhExecuteCmd (setPidWord sel value)
  let echo : BitVec 16 := PdhCallbackT.payloadR.get cb
  let converted : F := div (ofInt echo.toInt) (lit scale)
  let r := r.validate echo value fail.code
  return r.pushCtxCb (.float converted) name

/-- One write of an unsigned value. -/
def setPidUint (sel : PidCoeffSelE) (value : BitVec 32) (name : String) (fail : SetPidE)
    (r : Reply F) : Routine (Reply F) := do
  let cb ← pdhExecuteCmd (setPidWord sel (value.setWidth 16))
  let echo : BitVec 32 := (PdhCallbackT.payloadR.get cb).setWidth 32
  let r := r.validate echo value fail.code
  return r.pushCtxCb (.uint echo) name

/-- `cmd_set_pid`. -/
def cmdSetPid (ctx : CmdCtx F) : Routine (Reply F) := do
  let q := PidRequest.ofCtx ctx
  let r ← setPidInt16 .kp q.kpI 32768 "KP_CB" .invalidKp ⟨SetPidE.ok.code, []⟩
  let r ← setPidInt16 .kd q.kdI 32768 "KD_CB" .invalidKd r
  let r ← setPidInt16 .ki q.kiI 32768 "KI_CB" .invalidKi r
  let r ← setPidUint .dec q.dec "DEC_CB" .invalidDec r
  let r ← setPidInt16 .sp q.spI 8192 "SP_CB" .invalidSp r
  let r ← setPidUint .alpha q.alpha "ALPHA_CB" .invalidAlpha r
  let r ← setPidUint .sat q.sat "SAT_CB" .invalidSat r
  let r ← setPidUint .en q.en "EN_CB" .invalidEn r
  let r ← setPidInt16 .gain q.gainI 1024 "GAIN_CB" .invalidGain r
  let r ← setPidInt16 .bias q.biasI 8191 "BIAS_CB" .invalidBias r
  setPidInt16 .egain q.egainI 1024 "EGAIN_CB" .invalidEgain r

/-! ## `cmd_set_fir` -/

/-- `set_fir_e`. -/
inductive SetFirE where
  | ok
  | invalidCoeff
  | invalidInputSel
  | addrCbFail
  | coeffCbFail
  | memWenCbFail
  | chainWenCbFail
  | inputSelCbFail
deriving DecidableEq, Repr

/-- The return code. -/
def SetFirE.code : SetFirE → ℕ
  | .ok => 0
  | .invalidCoeff => 1
  | .invalidInputSel => 2
  | .addrCbFail => 3
  | .coeffCbFail => 4
  | .memWenCbFail => 5
  | .chainWenCbFail => 6
  | .inputSelCbFail => 7

/-- The word that writes {lit}`payload` to the register {lit}`sel`. -/
def setFirWord (sel : FirUpdateSelE) (payload : BitVec 16) : BitVec 32 :=
  PdhCmdT.payload.set payload (PdhCmdT.updateSel.set sel.code (cmdWord .setFir))

/-- One write and the check of its echo under a mask. -/
def setFirReg (sel : FirUpdateSelE) (value mask : BitVec 32) (fail : SetFirE) (r : Reply F) :
    Routine (BitVec 32 × Reply F) := do
  let cb ← pdhExecuteCmd (setFirWord sel (value.setWidth 16))
  let echo : BitVec 32 := (PdhCallbackT.payloadR.get cb).setWidth 32 &&& mask
  return (echo, r.validate echo value fail.code)

/-- The loop that sets the address, then the value, of one coefficient after the
other, from coefficient {lit}`i` on. -/
def loadCoeffs (ctx : CmdCtx F) (r : Reply F) (i : ℕ) : ℕ → Routine (Reply F)
  | 0 => pure r
  | n + 1 => do
      let (_, r) ← setFirReg .addr (BitVec.ofNat 32 i) 0x1F#32 .addrCbFail r
      let coeffQ15 : BitVec 16 := floatToQ15 (ctx.floatArgs i)
      let (_, r) ← setFirReg .coeff (coeffQ15.setWidth 32) 0xFFFF#32 .coeffCbFail r
      loadCoeffs ctx r (i + 1) n

/-- The range checks at the head of `cmd_set_fir`. -/
def firArgsCode (ctx : CmdCtx F) : SetFirE :=
  if 3#32 < ctx.uintArgs 0 then .invalidInputSel
  else if (List.range ctx.numFloats).any fun i =>
      lt (lit 1) (ctx.floatArgs i) || lt (ctx.floatArgs i) (lit (-1)) then .invalidCoeff
  else .ok

/-- `cmd_set_fir`. -/
def cmdSetFir (ctx : CmdCtx F) : Routine (Reply F) := do
  if firArgsCode ctx ≠ .ok then
    return ⟨(firArgsCode ctx).code, []⟩
  else
    let r : Reply F := ⟨SetFirE.ok.code, []⟩
    let (echo, r) ← setFirReg .inputSel (ctx.uintArgs 0) 0x7#32 .inputSelCbFail r
    let r := r.pushCtxCb (.uint echo) "INPUT_SEL_CB"
    let (echo, r) ← setFirReg .memWriteEn 1#32 0x1#32 .memWenCbFail r
    let r := r.pushCtxCb (.uint echo) "MEM_WEN_EN_CB"
    let r ← loadCoeffs ctx r 0 ctx.numFloats
    let (echo, r) ← setFirReg .memWriteEn 0#32 0x1#32 .memWenCbFail r
    let r := r.pushCtxCb (.uint echo) "MEM_WEN_DIS_CB"
    let (echo, r) ← setFirReg .chainWriteEn 1#32 0x1#32 .chainWenCbFail r
    return r.pushCtxCb (.uint echo) "CHAIN_WEN_CB"

/-! ## `cmd_get_frame` -/

/-- `get_frame_e`. -/
inductive GetFrameE where
  | ok
  | notEngaged
  | invalidDec
  | invalidCode
deriving DecidableEq, Repr

/-- The return code. -/
def GetFrameE.code : GetFrameE → ℕ
  | .ok => 0
  | .notEngaged => 1
  | .invalidDec => 2
  | .invalidCode => 3

/-- A signed field of `dma_frame_t`. -/
def signedField (lo len : ℕ) (raw : BitVec 64) : ℤ := (raw.extractLsb' lo len).toInt

/-- An unsigned field of `dma_frame_t`. -/
def unsignedField (lo len : ℕ) (raw : BitVec 64) : ℤ := (raw.extractLsb' lo len).toNat

/-- The columns printed for one word of a frame. -/
def frameColumns (frameCode : BitVec 32) (raw : BitVec 64) : List ℤ :=
  match frameCode with
  | 0b0001#32 =>
      [signedField 48 16 raw, signedField 32 16 raw, signedField 16 16 raw, signedField 0 16 raw]
  | 0b0010#32 => [signedField 48 16 raw, unsignedField 32 14 raw, signedField 0 32 raw]
  | 0b0011#32 =>
      [signedField 0 16 raw, signedField 16 16 raw, unsignedField 32 16 raw,
        unsignedField 48 16 raw]
  | 0b0100#32 =>
      [unsignedField 0 16 raw, unsignedField 16 16 raw, unsignedField 32 16 raw,
        unsignedField 48 16 raw]
  | 0b0101#32 =>
      [unsignedField 48 16 raw, unsignedField 32 16 raw, unsignedField 16 16 raw,
        unsignedField 0 16 raw]
  | 0b0110#32 => [signedField 0 16 raw, signedField 16 16 raw]
  | 0b0111#32 => [signedField 0 16 raw, signedField 16 16 raw, unsignedField 32 14 raw]
  | 0b1000#32 =>
      [signedField 0 16 raw, signedField 16 16 raw, signedField 32 16 raw, signedField 48 16 raw]
  | _ => [signedField 16 16 raw, signedField 0 16 raw, signedField 48 16 raw, signedField 32 16 raw]

/-- The loop over the mapped frame, from {lit}`offset` on. -/
def dumpFrame (frameCode offset : BitVec 32) : ℕ → Routine Unit
  | 0 => pure ()
  | n + 1 => do
      let frame ← (Call.dmaGetFrame offset).run
      (Call.fprintf (frameColumns frameCode frame)).run
      dumpFrame frameCode (offset + 8#32) n

/-- The command word of a frame request. -/
def getFrameWord (decimationCode frameCode : BitVec 32) : BitVec 32 :=
  PdhCmdT.frameCode.set (frameCode.setWidth 4)
    (PdhCmdT.decimation.set (decimationCode.setWidth 22) (cmdWord .getFrame))

/-- The reply of a frame request before the file is opened. -/
def getFrameReply (decimationCode frameCode cb : BitVec 32) : Reply F :=
  let echoEngaged : BitVec 32 := (PdhCallbackT.dmaEngaged.get cb).setWidth 32
  let echoDec : BitVec 32 := (PdhCallbackT.decimation.get cb).setWidth 32
  let echoFrame : BitVec 32 := (PdhCallbackT.frameCode.get cb).setWidth 32
  let echoCmd : BitVec 32 := (PdhCallbackT.cmd.get cb).setWidth 32
  let r : Reply F := ⟨GetFrameE.ok.code, []⟩
  let r := r.validate echoDec decimationCode GetFrameE.invalidDec.code
  let r := r.validate echoFrame frameCode GetFrameE.invalidCode.code
  let r := r.validateCmd cb (getFrameWord decimationCode frameCode)
  let r := r.pushCtxCb (.uint echoEngaged) "DMA_ENGAGED_CB"
  let r := r.pushCtxCb (.uint echoDec) "DECIMATION_CODE_CB"
  let r := r.pushCtxCb (.uint echoFrame) "FRAME_CODE_CB"
  r.pushCtxCb (.uint echoCmd) "CMD_CB"

/-- The last part of `cmd_get_frame`: the log file. -/
def logFrame (frameCode : BitVec 32) (r : Reply F) : Routine (Reply F) := do
  let f ← (Call.fopen "dma_log.csv").run
  let returnCode := if f then r.returnCode else 1
  if returnCode = 0 then
    dumpFrame frameCode 0#32 (0x20000 / 8)
    (Call.fclose "dma_log.csv").run
  return { r with
    returnCode := returnCode
    outputItems := r.outputItems ++ [⟨"return_code", .uint (BitVec.ofNat 32 returnCode)⟩] }

/-- `cmd_get_frame`. -/
def cmdGetFrame (ctx : CmdCtx F) : Routine (Reply F) := do
  let decimationCode := if ctx.uintArgs 0 < 1#32 then 1#32 else ctx.uintArgs 0
  let frameCode := ctx.uintArgs 1
  Call.uioAckIrq.run
  pdhStrobeCmd (cmdWord .idle)
  pdhStrobeCmd (getFrameWord decimationCode frameCode)
  let sel ← (Call.select (330#32 + 140#32 * decimationCode)).run
  let cb ← Call.pdhGetCallback.run
  if 0 < sel then
    Call.uioWaitIrq.run
    Call.uioAckIrq.run
  logFrame frameCode (getFrameReply decimationCode frameCode cb)

end Server
end PoundDreverHall
