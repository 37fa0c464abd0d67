import PoundDreverHall.Server.SweepRamp
import PoundDreverHall.Server.Text

/-!
# Server - `server.c`, a request

The server looks a request up in its table, checks how many arguments it has, runs the
handler, and answers with the name of the command, a status and the values that the
handler left.
-/

namespace PoundDreverHall
namespace Server

open Device

/-! ## The table -/

/-- The handlers. -/
inductive Handler where
  | setLed
  | resetFpga
  | setDac
  | getAdc
  | checkSigned
  | setRot
  | getFrame
  | testFrame
  | setPid
  | setFir
  | setNco
  | configIo
  | configDemod
  | sweepRamp
deriving DecidableEq, Repr

/-- `cmd_entry_t`. -/
structure CmdEntry where
  name : List Char
  func : Handler
  requiredFloats : ℕ
  requiredInts : ℕ
  requiredUints : ℕ
deriving DecidableEq, Repr

/-- `gCmds`. -/
def gCmds : List CmdEntry :=
  [ ⟨['s', 'e', 't', '_', 'l', 'e', 'd'], .setLed, 0, 0, 1⟩,
    ⟨['r', 'e', 's', 'e', 't', '_', 'f', 'p', 'g', 'a'], .resetFpga, 0, 0, 0⟩,
    ⟨['s', 'e', 't', '_', 'd', 'a', 'c'], .setDac, 1, 0, 1⟩,
    ⟨['g', 'e', 't', '_', 'a', 'd', 'c'], .getAdc, 0, 0, 0⟩,
    ⟨['c', 'h', 'e', 'c', 'k', '_', 's', 'i', 'g', 'n', 'e', 'd'], .checkSigned, 0, 0, 1⟩,
    ⟨['s', 'e', 't', '_', 'r', 'o', 't', 'a', 't', 'i', 'o', 'n'], .setRot, 1, 0, 0⟩,
    ⟨['g', 'e', 't', '_', 'f', 'r', 'a', 'm', 'e'], .getFrame, 0, 0, 2⟩,
    ⟨['t', 'e', 's', 't', '_', 'f', 'r', 'a', 'm', 'e'], .testFrame, 0, 0, 1⟩,
    ⟨['s', 'e', 't', '_', 'p', 'i', 'd'], .setPid, 4, 0, 4⟩,
    ⟨['s', 'e', 't', '_', 'f', 'i', 'r'], .setFir, 0, 0, 1⟩,
    ⟨['s', 'e', 't', '_', 'n', 'c', 'o'], .setNco, 2, 0, 1⟩,
    ⟨['c', 'o', 'n', 'f', 'i', 'g', '_', 'i', 'o'], .configIo, 0, 0, 3⟩,
    ⟨['c', 'o', 'n', 'f', 'i', 'g', '_', 'd', 'e', 'm', 'o', 'd'], .configDemod, 0, 0, 3⟩,
    ⟨['s', 'w', 'e', 'e', 'p', '_', 'r', 'a', 'm', 'p'], .sweepRamp, 2, 0, 4⟩ ]

section Request

variable {F : Type} [MixedPrecision F]

/-- A handler.  The word {lit}`stack` is what the storage of its local variables holds
before. -/
def Handler.run (stack : BitVec 32) (ctx : CmdCtx F) : Handler → Routine (Reply F)
  | .setLed => cmdSetLed ctx
  | .resetFpga => cmdResetFpga
  | .setDac => cmdSetDac ctx
  | .getAdc => cmdGetAdc
  | .checkSigned => cmdCheckSigned ctx
  | .setRot => cmdSetRot ctx
  | .getFrame => cmdGetFrame ctx
  | .testFrame => cmdTestFrame
  | .setPid => cmdSetPid ctx
  | .setFir => cmdSetFir ctx
  | .setNco => cmdSetNco ctx
  | .configIo => cmdConfigIo stack ctx
  | .configDemod => cmdConfigDemod ctx
  | .sweepRamp => cmdSweepRamp ctx

/-! ## `dispatch_command` -/

/-- `dispatch_cmd_codes_e`. -/
inductive DispatchE where
  | ok
  | noCmd
  | floatArgMismatch
  | intArgMismatch
  | uintArgMismatch
deriving DecidableEq, Repr

/-- The entry of a command. -/
def findEntry (name : List Char) : Option CmdEntry :=
  gCmds.find? fun e => e.name = name

/-- The checks of `dispatch_command` on an entry. -/
def CmdEntry.check (e : CmdEntry) (ctx : LoadedCtx F) : DispatchE :=
  if ctx.numFloats < e.requiredFloats then .floatArgMismatch
  else if ctx.numInts < e.requiredInts then .intArgMismatch
  else if ctx.numUints < e.requiredUints then .uintArgMismatch
  else .ok

/-- `dispatch_command`: its return value, and what is then in {lit}`code` and in the
outputs. -/
def dispatchCommand (stack : BitVec 32) (ctx : LoadedCtx F) (code : ℕ) :
    Routine (DispatchE × Reply F) :=
  match findEntry ctx.name with
  | none => pure (.noCmd, ⟨code, []⟩)
  | some e =>
      if e.check ctx = .ok then do
        let r ← e.func.run stack ctx.toCmdCtx
        return (.ok, r)
      else pure (e.check ctx, ⟨code, []⟩)

/-! ## `send_response` -/

/-- `%u`. -/
def formatUnsigned (u : BitVec 32) : List Char :=
  Nat.toDigits 10 u.toNat

/-- `%d`. -/
def formatInt (z : ℤ) : List Char :=
  if z < 0 then '-' :: Nat.toDigits 10 z.natAbs else Nat.toDigits 10 z.natAbs

/-- The value of an output item. -/
def OutputData.format : OutputData F → List Char
  | .float f => MixedPrecision.toText f
  | .int i => formatInt i.toInt
  | .uint u => formatUnsigned u

/-- A line of a reply. -/
def replyLine (name value : List Char) : List Char :=
  name ++ ':' :: value ++ ['\n']

/-- The text of a reply. -/
def responseText (name : List Char) (r : Reply F) : List Char :=
  replyLine ['t', 'y', 'p', 'e'] ['o', 'u', 't', 'p', 'u', 't'] ++
    replyLine ['n', 'a', 'm', 'e'] name ++
    replyLine ['s', 't', 'a', 't', 'u', 's'] (formatInt r.returnCode) ++
    r.outputItems.flatMap fun o => replyLine o.name.toList o.data.format

/-- `send_response`.  The reply is formatted in a buffer of 1024 bytes; {lit}`none` stands for
a reply that does not fit, with which the formatting runs past the end of the buffer. -/
def sendResponse (name : List Char) (r : Reply F) : Option (List Char) :=
  if (responseText name r).length < 1024 then some (responseText name r) else none

end Request

/-! ## The loop of `main` -/

/-- What the server does with the bytes of one {lit}`read`, and the reply that it sends, if
any.  The last byte is overwritten with the end of the string, and a failure of
`dispatch_command` is not reported. -/
def serve (F : Type) [MixedPrecision F] (stack : BitVec 32) (inbuff : List Char) :
    Routine (Option (List Char)) :=
  match (loadContext (cString inbuff.dropLast) : Option (LoadedCtx F)) with
  | none => pure none
  | some ctx => do
      let (_, r) ← dispatchCommand stack ctx 0
      return sendResponse ctx.name r

end Server
end PoundDreverHall
