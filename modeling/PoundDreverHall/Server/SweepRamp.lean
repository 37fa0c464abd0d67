import PoundDreverHall.Server.Controls

/-!
# Server - `control.c`, the ramp

`cmd_sweep_ramp` takes the first converter away from the loop, steps one of the converters
through a range of voltages, logs what it reads at every step, and gives the converter
back.
-/

namespace PoundDreverHall
namespace Server

open Device SinglePrecision MixedPrecision

variable {F : Type} [MixedPrecision F]

/-- The return codes of `cmd_sweep_ramp`. -/
inductive SweepRampE where
  | ok
  | invalidRange
  | invalidPoints
  | fopenErr
deriving DecidableEq, Repr

/-- The return code. -/
def SweepRampE.code : SweepRampE → ℕ
  | .ok => 0
  | .invalidRange => 1
  | .invalidPoints => 2
  | .fopenErr => 3

/-- The range checks at the head of `cmd_sweep_ramp`. -/
def rampArgsCode (ctx : CmdCtx F) : SweepRampE :=
  let v0 := ctx.floatArgs 0
  let v1 := ctx.floatArgs 1
  let numPoints := ctx.uintArgs 0
  if lt v0 (lit (-1)) || lt (lit 1) v0 || lt v1 (lit (-1)) || lt (lit 1) v1 then .invalidRange
  else if numPoints < 2#32 ∨ 16384#32 < numPoints then .invalidPoints
  else .ok

/-- The voltage of step {lit}`i`. -/
def rampVoltage (ctx : CmdCtx F) (i : ℕ) : F :=
  let v0 := ctx.floatArgs 0
  let step := div (sub (ctx.floatArgs 1) v0) (ofInt (ctx.uintArgs 0).toNat)
  add v0 (mul (ofInt i) step)

/-- The code of a voltage of the ramp. -/
def rampCode (v : F) : BitVec 32 :=
  clamp 0 16383 (8192#32 - toInt32 (mul v (lit 8192)))

/-- A reading of a signal, in volts. -/
def readSignal (sel : CsSelE) : Routine F := do
  let cb ← pdhExecuteCmd (checkSignedWord sel.code)
  return div (ofInt (PdhCallbackT.payload.get cb).toInt) (lit 8192)

/-- What is read and logged at a voltage. -/
def logStep (demodMode : BitVec 32) (v : F) : Routine Unit := do
  if demodMode ≠ 0#32 then
    let lpf : F ← readSignal .demodLpf
    (Call.fprintfFloats [toText v, toText lpf]).run
  else
    let adcA : F ← readSignal .adcDatA16s
    let adcB : F ← readSignal .adcDatB16s
    let iFeed : F ← readSignal .iFeed
    let qFeed : F ← readSignal .qFeed
    (Call.fprintfFloats [toText v, toText adcA, toText adcB, toText iFeed, toText qFeed]).run

/-- The loop over the points of the ramp, from point {lit}`i` on. -/
def rampPoints (ctx : CmdCtx F) (i : ℕ) : ℕ → Routine Unit
  | 0 => pure ()
  | n + 1 => do
      let v := rampVoltage ctx i
      let _ ← pdhExecuteCmd
        (setDacWord ((ctx.uintArgs 1).setWidth 1) ((rampCode v).setWidth 14))
      if 0#32 < ctx.uintArgs 2 then
        (Call.usleep (ctx.uintArgs 2)).run
      logStep (ctx.uintArgs 3) v
      rampPoints ctx (i + 1) n

/-- `cmd_sweep_ramp`.  If the log cannot be opened, it returns with the first converter
still taken from the loop. -/
def cmdSweepRamp (ctx : CmdCtx F) : Routine (Reply F) := do
  if rampArgsCode ctx ≠ .ok then
    return ⟨(rampArgsCode ctx).code, []⟩
  else
    let ioCb ← pdhExecuteCmd (checkSignedWord CsSelE.io.code)
    let origDac1 := PdhCallbackT.dac1DatSelR.get ioCb
    let origDac2 := PdhCallbackT.dac2DatSelR.get ioCb
    let origPid := PdhCallbackT.pidDatSelR.get ioCb
    let _ ← pdhExecuteCmd (configIoWord 0#3 origDac2 origPid 0#32)
    let f ← (Call.fopen "sweep_log.csv").run
    if f then
      rampPoints ctx 0 (ctx.uintArgs 0).toNat
      (Call.fclose "sweep_log.csv").run
      let _ ← pdhExecuteCmd (configIoWord origDac1 origDac2 origPid 0#32)
      let r : Reply F := ⟨SweepRampE.ok.code, []⟩
      return r.pushCtxCb (.uint (ctx.uintArgs 0)) "NUM_POINTS_CB"
    else
      return ⟨SweepRampE.fopenErr.code, []⟩

end Server
end PoundDreverHall
