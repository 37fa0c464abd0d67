import PoundDreverHall.Requests.BoardRefinement
import PoundDreverHall.Requests.EarlyInterrupt
import PoundDreverHall.Requests.FrameTrace
import PoundDreverHall.Requests.LockRegisters
import PoundDreverHall.Requests.NcoSwitch
import PoundDreverHall.Requests.OpenFiles
import PoundDreverHall.Requests.SweepDrive

/-!
# Requests - the server as a store of settings

Seen from a client, the server and the core are a store: a request replaces some of the settings
and leaves the others alone.  This file states the store, which knows no words, no strobes and no
clock, and the rules for what a routine does to the registers behind it.

Main results:

- Structure {lit}`Settings` and definition {lit}`Settings.apply`: the store, and what a request
  does to it.
- Definition {lit}`settingsOf`: the settings that the registers stand for.
- Theorem {lit}`exec_of_decode`: what a command does to the registers, by its view.
- Theorem {lit}`configures_execute`: an executed command of a routine.
-/

namespace PoundDreverHall
namespace Requests

open Clocked Device Device.Program Server PdhCore SinglePrecision MixedPrecision

/-! ## The store -/

/-- The settings of the controller, the bias as it was asked for. -/
structure PidSettings where
  kp : BitVec 16
  kd : BitVec 16
  ki : BitVec 16
  dec : BitVec 14
  sp : BitVec 14
  alpha : BitVec 4
  sat : BitVec 5
  en : Bool
  gain : BitVec 16
  bias : BitVec 14
  egain : BitVec 16
deriving DecidableEq, Repr

/-- The settings that requests replace.  The coefficients of the filter are not among them. -/
structure Settings where
  led : BitVec 8
  dac1 : BitVec 14
  dac2 : BitVec 14
  cosTheta : BitVec 16
  sinTheta : BitVec 16
  pid : PidSettings
  nco : NcoTuple
  ncoEn : Bool
  firInputSel : BitVec 3
  dac1DatSel : BitVec 3
  dac2DatSel : BitVec 3
  pidDatSel : BitVec 3
  refSel : Bool
  inSel : BitVec 3
  lpfAlpha : BitVec 4
  decimation : BitVec 22
  frameCode : BitVec 4
deriving DecidableEq, Repr

/-- The settings that the registers of the controller stand for. -/
def PidSettings.ofRegs (r : Regs) : PidSettings where
  kp := r.kpR
  kd := r.kdR
  ki := r.kiR
  dec := r.decR
  sp := r.spR
  alpha := r.alphaR
  sat := r.satwidthR
  en := r.pidEnableR
  gain := r.gainR
  bias := -r.biasR
  egain := r.egainR

/-- The settings that a configuration stands for.  Of the rotation, only the coefficients that
have been committed count. -/
def settingsOf (c : Config) : Settings where
  led := c.regs.ledR
  dac1 := c.dac1DatR
  dac2 := c.dac2DatR
  cosTheta := c.regs.rotCosThetaR
  sinTheta := c.regs.rotSinThetaR
  pid := .ofRegs c.regs
  nco := ncoTuple c.regs
  ncoEn := c.regs.ncoEnR
  firInputSel := c.regs.firInputSelR
  dac1DatSel := c.regs.dac1DatSelR
  dac2DatSel := c.regs.dac2DatSelR
  pidDatSel := c.regs.pidSelR
  refSel := c.regs.demodRefSelR
  inSel := c.regs.demodInSelR
  lpfAlpha := c.regs.demodLpfAlphaR
  decimation := c.regs.dmaDecimationCodeR
  frameCode := c.regs.frameCodeR

/-- The settings that a request for the controller asks for. -/
def PidRequest.settings (q : PidRequest) : PidSettings where
  kp := q.kpI
  kd := q.kdI
  ki := q.kiI
  dec := q.dec.setWidth 14
  sp := q.spI.setWidth 14
  alpha := q.alpha.setWidth 4
  sat := q.sat.setWidth 5
  en := q.en.getLsbD 0
  gain := q.gainI
  bias := q.biasI.setWidth 14
  egain := q.egainI

namespace Settings

/-- The settings after a reset. -/
def reset : Settings := settingsOf Config.reset

/-- A converter is given a code. -/
def setDac (s : Settings) (dac : BitVec 1) (code : BitVec 14) : Settings :=
  if dac = 1#1 then { s with dac2 := code } else { s with dac1 := code }

variable {F : Type} [MixedPrecision F]

/-- What a request does to the settings.  The word {lit}`stack` is what the stack holds before,
and {lit}`opened` says whether the log of a ramp could be opened. -/
def apply (stack : BitVec 32) (ctx : CmdCtx F) (opened : Bool) (s : Settings) :
    Handler → Settings
  | .setLed =>
      if 255#32 < ctx.uintArgs 0 then s else { s with led := (ctx.uintArgs 0).setWidth 8 }
  | .resetFpga => reset
  | .setDac =>
      s.setDac (BitVec.ofBool (ctx.uintArgs 0 != 0#32)) ((dacCodeOf (ctx.floatArgs 0)).setWidth 14)
  | .getAdc | .checkSigned | .testFrame => s
  | .setRot =>
      { s with
        cosTheta := floatToQ15 (cosf (clampAngle (ctx.floatArgs 0)))
        sinTheta := floatToQ15 (sinf (clampAngle (ctx.floatArgs 0))) }
  | .getFrame =>
      { s with
        decimation := (decimationOf ctx).setWidth 22
        frameCode := (ctx.uintArgs 1).setWidth 4 }
  | .setPid => { s with pid := PidRequest.settings (.ofCtx ctx) }
  | .setFir =>
      if firArgsCode ctx = .ok then { s with firInputSel := (ctx.uintArgs 0).setWidth 3 } else s
  | .setNco =>
      if ncoArgsCode ctx = .ok then
        { s with nco := requestTuple ctx, ncoEn := (ctx.uintArgs 0).getLsbD 0 }
      else s
  | .configIo =>
      if ioArgsCode ctx = .ok then
        if rstBit stack then reset
        else
          { s with
            dac1DatSel := (ctx.uintArgs 0).setWidth 3
            dac2DatSel := (ctx.uintArgs 1).setWidth 3
            pidDatSel := (ctx.uintArgs 2).setWidth 3 }
      else s
  | .configDemod =>
      if 1#32 < ctx.uintArgs 0 ∨ 6#32 < ctx.uintArgs 1 then s
      else
        { s with
          refSel := (ctx.uintArgs 0).getLsbD 0
          inSel := (ctx.uintArgs 1).setWidth 3
          lpfAlpha := (ctx.uintArgs 2).setWidth 4 }
  | .sweepRamp =>
      if rampArgsCode ctx = .ok then
        if opened then s.setDac (rampDac ctx) (stepCode ctx ((ctx.uintArgs 0).toNat - 1))
        else { s with dac1DatSel := 0#3 }
      else s

/-- What the text of a request does to the settings. -/
def serve (F : Type) [MixedPrecision F] (stack : BitVec 32) (opened : Bool) (inbuff : List Char)
    (s : Settings) : Settings :=
  match (loadContext (cString inbuff.dropLast) : Option (LoadedCtx F)) with
  | none => s
  | some ctx =>
      match findEntry ctx.name with
      | none => s
      | some e => if e.check ctx = .ok then s.apply stack ctx.toCmdCtx opened e.func else s

end Settings

/-- A file was opened. -/
def fileOpened (path : String) (tr : Trace) : Bool :=
  tr.any fun e =>
    match e with
    | ⟨.fopen path', opened⟩ => path' == path && opened
    | _ => false

/-- A file was opened if and only if an `fopen` of it succeeded. -/
theorem fileOpened_iff {path : String} {tr : Trace} :
    fileOpened path tr = true ↔ ⟨.fopen path, true⟩ ∈ tr := by
  rw [fileOpened, List.any_eq_true]
  constructor
  · rintro ⟨⟨c, r⟩, he, hopened⟩
    cases c with
    | fopen path' =>
        rw [Bool.and_eq_true, beq_iff_eq] at hopened
        rcases hopened with ⟨rfl, hr⟩
        change r = true at hr
        exact hr ▸ he
    | _ => exact absurd hopened Bool.false_ne_true
  · intro h
    exact ⟨_, h, by simp⟩

/-- What a request that was served does to the settings. -/
def Request.settings {F : Type} [MixedPrecision F] (q : Request F) (s : Settings) : Settings :=
  s.serve F q.stack (fileOpened "sweep_log.csv" q.trace) q.inbuff

/-! ## Commands -/

/-- What a command does to a configuration. -/
def CmdView.run (v : CmdView) (c : Config) : Config :=
  match v with
  | .dacCmd dacCode dacSel =>
      if dacSel = 1#1 then { c with dac2DatR := dacCode } else { c with dac1DatR := dacCode }
  | v => { c with regs := v.exec c.regs }

/-- A word that decodes to a command does what the command does. -/
theorem exec_of_decode {w : BitVec 32} {v : CmdView} (h : decode w = some v) (c : Config) :
    exec w c = v.run c := by
  have hregs : (exec w c).regs = v.exec c.regs := by
    rw [exec_regs, ← next_eq_execRegs, next_of_decode h]
  rcases exec_dac w c with ⟨hdac1, hdac2⟩
  rw [dacNext_of_decode h] at hdac1 hdac2
  have hconfig : exec w c = ⟨v.exec c.regs, (v.execDac (dacRegs c)).dac1DatR,
      (v.execDac (dacRegs c)).dac2DatR⟩ := by
    rw [← hregs, ← hdac1, ← hdac2]
  rw [hconfig]
  cases v with
  | dacCmd dacCode dacSel =>
      by_cases hsel : dacSel = 1#1
      · simp [CmdView.run, CmdView.exec, CmdView.execDac, hsel, dacRegs]
      · simp [CmdView.run, CmdView.exec, CmdView.execDac, hsel, dacRegs]
  | _ => rfl

/-- The strobe is no part of the command. -/
theorem exec_strobe (v : BitVec 1) (w : BitVec 32) (c : Config) :
    exec (PdhCmdT.strobe.set v w) c = exec w c := by
  simp only [exec, cmdW_strobe, dataW_strobe, execRegs_strobe]

/-- A strobed command is executed, and its word stays on the bus. -/
theorem send_strobed {cmd : BitVec 32} (hrst : rstBit cmd = false) (b : Board) :
    (strobed cmd).foldl (fun b w => b.send w) b =
      { config := exec (PdhCmdT.strobe.set 1#1 cmd) b.config
        latched := PdhCmdT.strobe.set 1#1 cmd
        bus := PdhCmdT.strobe.set 1#1 cmd } := by
  rw [strobed, List.foldl_cons, List.foldl_cons, List.foldl_nil, send_low hrst]
  exact send_high hrst (strobeBit_strobe 0#1 cmd)

/-- Strobed commands are executed in order. -/
theorem config_foldl_strobed {cmds : List (BitVec 32)} (hrst : ∀ c ∈ cmds, rstBit c = false)
    (b : Board) :
    ((cmds.flatMap strobed).foldl (fun b w => b.send w) b).config =
      cmds.foldl (fun c w => exec w c) b.config := by
  induction cmds generalizing b with
  | nil => rfl
  | cons c cmds ih =>
      have hc := hrst c List.mem_cons_self
      rw [List.flatMap_cons, List.foldl_append, send_strobed hc,
        ih fun c' hc' => hrst c' (List.mem_cons_of_mem c hc'), List.foldl_cons, exec_strobe]

/-! ## Routines -/

/-- Whatever the board answers, the routine changes the configuration by {lit}`f`. -/
def Configures {α : Type} (p : Routine α) (f : Config → Config) : Prop :=
  ∀ c, Triple board (fun b => b.config = c) p fun _ b => b.config = f c

section Configures

variable {α β : Type} {p : Routine α} {f : Config → Config}

theorem configures_pure (a : α) : Configures (pure a : Routine α) id :=
  fun _ => Triple.pure fun _ h => h

/-- One routine after another. -/
theorem configures_bind {k : α → Routine β} {g : Config → Config} (hp : Configures p f)
    (hk : ∀ a, Configures (k a) g) : Configures (p >>= k) (g ∘ f) :=
  fun c => Triple.bind (hp c) fun a => hk a (f c)

/-- What is computed from the result changes nothing. -/
theorem configures_bind_pure (hp : Configures p f) (k : α → β) :
    Configures (p >>= fun a => pure (k a)) f :=
  configures_bind (g := id) hp fun a => configures_pure (k a)

/-- A routine that sends strobed commands executes them. -/
theorem configures_of_emits {cmds : List (BitVec 32)} (hrst : ∀ c ∈ cmds, rstBit c = false)
    (h : Emits Call.sent p (cmds.flatMap strobed)) :
    Configures p fun c => cmds.foldl (fun c w => exec w c) c := by
  rintro c b tr a b' rfl hrun hfollows
  rw [follows_board_sent hfollows, h tr a hrun, config_foldl_strobed hrst]

/-- A routine that sends nothing changes nothing. -/
theorem configures_of_silent (h : Emits Call.sent p []) : Configures p id := by
  have hnil : ∀ c ∈ ([] : List (BitVec 32)), rstBit c = false := nofun
  exact configures_of_emits hnil h

/-- A call that sends nothing changes no setting. -/
theorem configures_call {c : Call} (h : c.sent = []) : Configures c.run id :=
  configures_of_silent (h ▸ Call.run_emits c)

/-- An executed command. -/
theorem configures_execute {cmd : BitVec 32} {v : CmdView} (hrst : rstBit cmd = false)
    (h : decode (PdhCmdT.strobe.set 1#1 cmd) = some v) :
    Configures (pdhExecuteCmd cmd) v.run := by
  have hemits : Emits Call.sent (pdhExecuteCmd cmd) ([cmd].flatMap strobed) :=
    pdhExecuteCmd_emits cmd
  have hconfigures := configures_of_emits (List.forall_mem_singleton.mpr hrst) hemits
  intro c b tr cb b' hb hrun hfollows
  rw [hconfigures c b tr cb b' hb hrun hfollows, ← exec_of_decode h, exec_strobe]
  rfl

end Configures

/-! ## Words -/

/-- The commands without arguments. -/
theorem decode_cmdWord (v : BitVec 1) :
    decode (PdhCmdT.strobe.set v (cmdWord .idle)) = some .idle ∧
      decode (PdhCmdT.strobe.set v (cmdWord .getAdc)) = some .adcCmd ∧
      decode (PdhCmdT.strobe.set v (cmdWord .commitRotCoeffs)) = some .commitRotCoeffCmd := by
  revert v
  decide

theorem decode_ledWord (ledCode : BitVec 8) :
    decode (PdhCmdT.strobe.set 1#1 (PdhCmdT.ledCode.set ledCode (cmdWord .setLed))) =
      some (.ledCmd ledCode) := by
  apply CmdView.Holds.decode
  constructor
  · simp (disch := decide) only [cmdWord, BitField.get_set_of_disjoint, BitField.get_set,
      CmdView.cmd]
  · simp (disch := decide) only [cmdWord, BitField.get_set_of_disjoint, BitField.get_set,
      CmdView.cmd, CmdView.read]

theorem decode_checkSignedWord (sel : BitVec 5) :
    decode (PdhCmdT.strobe.set 1#1 (checkSignedWord sel)) = some (.csCmd sel) := by
  apply CmdView.Holds.decode
  constructor
  · simp (disch := decide) only [checkSignedWord, cmdWord, BitField.get_set_of_disjoint,
      BitField.get_set, CmdView.cmd]
  · simp (disch := decide) only [checkSignedWord, cmdWord, BitField.get_set_of_disjoint,
      BitField.get_set, CmdView.cmd, CmdView.read]

theorem decode_rotWord (select : BitVec 1) (payload : BitVec 16) :
    decode (PdhCmdT.strobe.set 1#1 (rotWord select payload)) =
      some (.setRotCoeffCmd payload select) := by
  apply CmdView.Holds.decode
  constructor
  · simp (disch := decide) only [rotWord, cmdWord, BitField.get_set_of_disjoint,
      BitField.get_set, CmdView.cmd]
  · simp (disch := decide) only [rotWord, cmdWord, BitField.get_set_of_disjoint,
      BitField.get_set, CmdView.cmd, CmdView.read]

theorem decode_getFrameWord (decimation frameCode : BitVec 32) :
    decode (PdhCmdT.strobe.set 1#1 (getFrameWord decimation frameCode)) =
      some (.getFrameCmd (decimation.setWidth 22) (frameCode.setWidth 4)) := by
  apply CmdView.Holds.decode
  constructor
  · simp (disch := decide) only [getFrameWord, cmdWord, BitField.get_set_of_disjoint,
      BitField.get_set, CmdView.cmd]
  · simp (disch := decide) only [getFrameWord, cmdWord, BitField.get_set_of_disjoint,
      BitField.get_set, CmdView.cmd, CmdView.read]

theorem decode_configDemodWord (refSel : BitVec 1) (inSel : BitVec 3) (lpfAlpha : BitVec 4) :
    decode (PdhCmdT.strobe.set 1#1 (configDemodWord refSel inSel lpfAlpha)) =
      some (.configDemodCmd refSel inSel lpfAlpha) := by
  apply CmdView.Holds.decode
  constructor
  · simp (disch := decide) only [configDemodWord, cmdWord, BitField.get_set_of_disjoint,
      BitField.get_set, CmdView.cmd]
  · simp (disch := decide) only [configDemodWord, cmdWord, BitField.get_set_of_disjoint,
      BitField.get_set, CmdView.cmd, CmdView.read]

end Requests
end PoundDreverHall
