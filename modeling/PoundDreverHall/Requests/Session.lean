import PoundDreverHall.Requests.Settings

/-!
# Requests - a session

A client sends texts, the server reads them, and the handlers write to the core.  This file shows
that what all of them do together, over any sequence of texts, is what the store does.

Main results:

- Theorem {lit}`handler_settings`: what a handler does to the registers is what its request does
  to the store.
- Theorem {lit}`session_settings`: the settings that the core has come to after any sequence of
  texts are those of the store.
-/

namespace PoundDreverHall
namespace Requests

open Clocked Device Device.Program Server PdhCore SinglePrecision MixedPrecision

/-! ## The handlers -/

section Handlers

variable {F : Type}

/-- `cmd_set_led` does what its one command does. -/
theorem cmdSetLed_configures {ctx : CmdCtx F} (hargs : ¬255#32 < ctx.uintArgs 0) :
    Configures (cmdSetLed ctx) (CmdView.ledCmd ((ctx.uintArgs 0).setWidth 8)).run := by
  dsimp only [cmdSetLed]
  rw [if_neg hargs]
  refine configures_bind_pure (configures_execute ?_ (decode_ledWord _)) _
  rw [rstBit_set (Nat.le_of_ble_eq_true rfl), rstBit_cmdWord]

/-- So does `cmd_config_io`, if the stack word does not reset. -/
theorem cmdConfigIo_configures (stack : BitVec 32) {ctx : CmdCtx F} (hargs : ioArgsCode ctx = .ok)
    (hstack : rstBit stack = false) :
    Configures (cmdConfigIo stack ctx) (CmdView.configIoCmd ((ctx.uintArgs 0).setWidth 3)
      ((ctx.uintArgs 1).setWidth 3) ((ctx.uintArgs 2).setWidth 3)).run := by
  dsimp only [cmdConfigIo]
  rw [if_neg (not_not.mpr hargs)]
  refine configures_bind_pure (configures_execute ?_ (decode_configIo _ _ _ _)) _
  rw [rstBit_configIoWord]
  exact hstack

/-- With the reset bit on the stack, the routing is not written but everything is reset. -/
theorem cmdConfigIo_resets {stack : BitVec 32} {ctx : CmdCtx F} (hargs : ioArgsCode ctx = .ok)
    (hstack : rstBit stack = true) :
    Configures (cmdConfigIo stack ctx) fun _ => Config.reset := by
  rintro c b tr r b' - hrun hfollows
  rw [follows_board_sent hfollows, cmdConfigIo_emits stack hargs tr r hrun, strobed,
    List.foldl_cons, List.foldl_cons, List.foldl_nil, Board.send_of_rst]
  · rfl
  · rw [rstBit_strobe, rstBit_configIoWord]
    exact hstack

/-- `cmd_reset_fpga` raises the reset bit and lowers it. -/
theorem cmdResetFpga_emits :
    Emits Call.sent (cmdResetFpga : Routine (Reply F))
      [PdhCmdT.rst.set 1#1 0#32, PdhCmdT.rst.set 0#1 (PdhCmdT.rst.set 1#1 0#32)] :=
  .bind (Call.run_emits _) fun _ => .bind (Call.run_emits _) fun _ =>
    .bind_pure (Call.run_emits .pdhGetCallback) _

/-- `cmd_reset_fpga` leaves the settings of a reset. -/
theorem cmdResetFpga_configures :
    Configures (cmdResetFpga : Routine (Reply F)) fun _ => Config.reset := by
  rintro c b tr r b' - hrun hfollows
  have hreset : b.send (PdhCmdT.rst.set 1#1 0#32) = resetBoard := Board.send_of_rst rfl b
  rw [follows_board_sent hfollows, cmdResetFpga_emits tr r hrun, List.foldl_cons, List.foldl_cons,
    List.foldl_nil, hreset]
  rfl

/-- `cmd_config_demod` does what its one command does. -/
theorem cmdConfigDemod_configures {ctx : CmdCtx F}
    (hargs : ¬(1#32 < ctx.uintArgs 0 ∨ 6#32 < ctx.uintArgs 1)) :
    Configures (cmdConfigDemod ctx) (CmdView.configDemodCmd ((ctx.uintArgs 0).setWidth 1)
      ((ctx.uintArgs 1).setWidth 3) ((ctx.uintArgs 2 &&& 0xF#32).setWidth 4)).run := by
  dsimp only [cmdConfigDemod]
  rw [if_neg fun h => hargs (.inl h), if_neg fun h => hargs (.inr h)]
  exact configures_bind_pure
    (configures_execute (rstBit_configDemodWord _ _ _) (decode_configDemodWord _ _ _)) _

/-- The two commands of a frame request do not reset. -/
theorem rstBit_frameCommands (ctx : CmdCtx F) :
    ∀ w ∈ [cmdWord .idle, getFrameWord (decimationOf ctx) (ctx.uintArgs 1)], rstBit w = false := by
  intro w hw
  rcases List.mem_pair.mp hw with rfl | rfl
  · exact rstBit_cmdWord _
  · exact rstBit_getFrameWord _ _

/-- `cmd_get_frame` does what its two commands do. -/
theorem cmdGetFrame_configures (ctx : CmdCtx F) :
    Configures (cmdGetFrame ctx) fun c =>
      [cmdWord .idle, getFrameWord (decimationOf ctx) (ctx.uintArgs 1)].foldl
        (fun c w => exec w c) c :=
  configures_of_emits (rstBit_frameCommands ctx) (cmdGetFrame_emits ctx)

section SinglePrecision

variable [SinglePrecision F]

/-- `cmd_set_pid` does what its eleven commands do. -/
theorem cmdSetPid_configures (ctx : CmdCtx F) :
    Configures (cmdSetPid ctx) fun c =>
      (pidOrder.map (pidWrite (.ofCtx ctx))).foldl (fun c w => exec w c) c := by
  refine configures_of_emits (fun c hc => ?_) (cmdSetPid_emits ctx)
  rcases List.mem_map.mp hc with ⟨sel, -, rfl⟩
  exact rstBit_setPidWord sel _

/-- `cmd_set_fir` does what its writes do, if it is accepted. -/
theorem cmdSetFir_configures (ctx : CmdCtx F) :
    Configures (cmdSetFir ctx) fun c => (requestWrites ctx).foldl (fun c w => exec w c) c := by
  refine configures_of_emits (fun w hw => ?_) (cmdSetFir_emits ctx)
  rw [requestWrites] at hw
  split_ifs at hw
  · exact rstBit_of_mem_firWrites _ _ w hw
  · exact absurd hw List.not_mem_nil

end SinglePrecision

section MixedPrecision

variable [MixedPrecision F]

/-- `cmd_set_dac` does what its one command does. -/
theorem cmdSetDac_configures (ctx : CmdCtx F) :
    Configures (cmdSetDac ctx) (CmdView.dacCmd ((dacCodeOf (ctx.floatArgs 0)).setWidth 14)
      (BitVec.ofBool (ctx.uintArgs 0 != 0#32))).run :=
  configures_bind_pure (configures_execute (rstBit_setDacWord _ _) (decode_setDacWord _ _)) _

theorem cmdGetAdc_configures : Configures (cmdGetAdc : Routine (Reply F)) CmdView.adcCmd.run :=
  configures_bind_pure (configures_execute (rstBit_cmdWord _) (decode_cmdWord 1#1).2.1) _

omit [MixedPrecision F] in
theorem cmdCheckSigned_configures (ctx : CmdCtx F) :
    Configures (cmdCheckSigned ctx) (CmdView.csCmd ((ctx.uintArgs 0).setWidth 5)).run :=
  configures_bind_pure
    (configures_execute (rstBit_checkSignedWord _) (decode_checkSignedWord _)) _

/-- `cmd_set_nco` does what its six commands do, if it is accepted. -/
theorem cmdSetNco_configures (ctx : CmdCtx F) :
    Configures (cmdSetNco ctx) fun c =>
      (if ncoArgsCode ctx = .ok then (ncoWrites ctx).map ncoWrite else []).foldl
        (fun c w => exec w c) c := by
  refine configures_of_emits (fun w hw => ?_) ?_
  · split_ifs at hw
    · exact rstBit_of_mem_ncoWrites ctx w hw
    · exact absurd hw List.not_mem_nil
  · have hemits := cmdSetNco_emits ctx
    split_ifs at hemits ⊢ <;> exact hemits

/-- The commands of a rotation: the two coefficients are written, and then committed. -/
def rotCommands (ctx : CmdCtx F) : List (BitVec 32) :=
  [rotWord 0#1 (floatToQ15 (cosf (clampAngle (ctx.floatArgs 0)))),
    rotWord 1#1 (floatToQ15 (sinf (clampAngle (ctx.floatArgs 0)))), cmdWord .commitRotCoeffs]

theorem rstBit_rotCommands (ctx : CmdCtx F) : ∀ w ∈ rotCommands ctx, rstBit w = false := by
  intro w hw
  simp only [rotCommands, List.mem_cons, List.not_mem_nil, or_false] at hw
  rcases hw with rfl | rfl | rfl
  · exact rstBit_rotWord _ _
  · exact rstBit_rotWord _ _
  · exact rstBit_cmdWord _

/-- The words of the rotation are those of three strobed commands. -/
theorem cmdSetRot_emits (ctx : CmdCtx F) :
    Emits Call.sent (cmdSetRot ctx) ((rotCommands ctx).flatMap strobed) := by
  have hwords : ∀ c s, [rotWord 0#1 c, rotWord 1#1 s, cmdWord .commitRotCoeffs].flatMap strobed =
      [setRotWord 0#1 0#1 c] ++ ([setRotWord 1#1 0#1 c] ++ ([setRotWord 0#1 1#1 s] ++
        ([setRotWord 1#1 1#1 s] ++ ([] ++ strobed (cmdWord .commitRotCoeffs))))) :=
    fun _ _ => rfl
  rw [rotCommands, hwords]
  refine .bind (Call.run_emits _) fun _ => ?_
  refine .bind (Call.run_emits _) fun _ => ?_
  refine .bind (Call.run_emits _) fun _ => ?_
  refine .bind (Call.run_emits _) fun _ => ?_
  refine .bind (Call.run_emits .pdhGetCallback) fun _ => ?_
  exact .bind_pure (pdhExecuteCmd_emits _) _

/-- `cmd_set_rot` does what the three commands do. -/
theorem cmdSetRot_configures (ctx : CmdCtx F) :
    Configures (cmdSetRot ctx) fun c => (rotCommands ctx).foldl (fun c w => exec w c) c :=
  configures_of_emits (rstBit_rotCommands ctx) (cmdSetRot_emits ctx)

/-! ### The ramp -/

/-- A register read changes no setting. -/
theorem readSignal_configures (sel : CsSelE) : Configures (readSignal sel : Routine F) id :=
  configures_bind_pure (configures_execute (rstBit_checkSignedWord _)
    (decode_checkSignedWord sel.code)) _

/-- Nor does a line of the log. -/
theorem logStep_configures (demodMode : BitVec 32) (v : F) :
    Configures (logStep demodMode v) id := by
  unfold logStep
  split_ifs
  · exact configures_bind (g := id) (readSignal_configures _) fun _ => configures_call rfl
  · refine configures_bind (g := id) (readSignal_configures _) fun _ => ?_
    refine configures_bind (g := id) (readSignal_configures _) fun _ => ?_
    refine configures_bind (g := id) (readSignal_configures _) fun _ => ?_
    exact configures_bind (g := id) (readSignal_configures _) fun _ => configures_call rfl

/-- A step of the ramp writes the converter, and the rest follows. -/
theorem rampPoints_succ_configures {ctx : CmdCtx F} {i n : ℕ} {f : Config → Config}
    (hrest : Configures (rampPoints ctx (i + 1) n) f) :
    Configures (rampPoints ctx i (n + 1))
      (f ∘ (CmdView.dacCmd (stepCode ctx i) (rampDac ctx)).run) := by
  refine configures_bind (configures_execute (rstBit_setDacWord _ _) (decode_setDacWord _ _))
    fun _ => ?_
  have hlog : Configures
      (logStep (ctx.uintArgs 3) (rampVoltage ctx i) >>= fun _ => rampPoints ctx (i + 1) n) f :=
    configures_bind (f := id) (logStep_configures _ _) fun _ => hrest
  dsimp only
  split_ifs
  · exact configures_bind (f := id) (configures_call rfl) fun _ => hlog
  · exact hlog

/-- After the loop, the converter has the code of the last point. -/
theorem rampPoints_configures (ctx : CmdCtx F) (i n : ℕ) :
    Configures (rampPoints ctx i (n + 1))
      (CmdView.dacCmd (stepCode ctx (i + n)) (rampDac ctx)).run := by
  induction n generalizing i with
  | zero => exact rampPoints_succ_configures (f := id) (configures_pure ())
  | succ n ih =>
      have hrest := ih (i + 1)
      rw [Nat.add_right_comm] at hrest
      have hsucc := rampPoints_succ_configures hrest
      intro c b tr r b' hb hrun hfollows
      rw [hsucc c b tr r b' hb hrun hfollows, Function.comp_apply]
      by_cases hdac : rampDac ctx = 1#1
      · simp [CmdView.run, hdac, Nat.add_assoc]
      · simp [CmdView.run, hdac, Nat.add_assoc]

/-- What an accepted ramp does depends on whether the log can be opened. -/
theorem performs_ramp {ctx : CmdCtx F} {tr : Trace} {reply : Reply F}
    {b b' : Board} (hargs : rampArgsCode ctx = .ok) (hrun : Performs (cmdSweepRamp ctx) tr reply)
    (hfollows : Follows board b tr b') :
    b'.config =
        (if fileOpened "sweep_log.csv" tr then
          CmdView.dacCmd (stepCode ctx ((ctx.uintArgs 0).toNat - 1)) (rampDac ctx)
        else CmdView.configIoCmd 0#3 b.config.regs.dac2DatSelR b.config.regs.pidSelR).run b.config ∧
      reply.returnCode =
        if fileOpened "sweep_log.csv" tr then SweepRampE.ok.code else SweepRampE.fopenErr.code := by
  unfold cmdSweepRamp at hrun
  rw [if_neg (not_not.mpr hargs)] at hrun
  rcases performs_bind.mp hrun with ⟨tr₁, ioCb, tail₁, hread, hrest₁, rfl⟩
  rcases performs_bind.mp hrest₁ with ⟨tr₂, _, tail₂, hwrite, hrest₂, rfl⟩
  rcases performs_call.mp hrest₂ with ⟨opened, tail₃, rfl, hrest₃⟩
  rcases follows_append.mp hfollows with ⟨b₁, hf₁, hf₂⟩
  rcases follows_append.mp hf₂ with ⟨b₂, hf₃, hf₄⟩
  rcases hf₄ with _ | ⟨hsame, hf₅⟩
  rcases performs_readRouting hread hf₁ with ⟨hquiet₁, hrouting⟩
  rcases performs_writeRouting hwrite hf₃ with ⟨hquiet₂, -⟩
  rw [Board.routing, Prod.mk.injEq, Prod.mk.injEq] at hrouting
  rcases hrouting with ⟨hdac1, hdac2, hpid⟩
  rw [hdac2, hpid] at hwrite hrest₃
  rw [hdac1] at hrest₃
  have hrst : ∀ dac1 dac2 pid, rstBit (configIoWord dac1 dac2 pid 0#32) = false := by
    intro dac1 dac2 pid
    rw [rstBit_configIoWord]
    rfl
  have hconfig₁ : b₁.config = b.config := configures_execute (rstBit_checkSignedWord _)
    decode_checkIo b.config b tr₁ ioCb b₁ rfl hread hf₁
  have hconfig₂ := configures_execute (hrst _ _ _) (decode_configIo _ _ _ _) b₁.config b₁ tr₂ _ b₂
    rfl hwrite hf₃
  rw [hconfig₁] at hconfig₂
  cases opened with
  | true =>
      have hopened : fileOpened "sweep_log.csv"
          (tr₁ ++ (tr₂ ++ ⟨.fopen "sweep_log.csv", true⟩ :: tail₃)) = true :=
        fileOpened_iff.mpr (by simp)
      rw [hopened, if_pos rfl, if_pos rfl]
      have htwo : 2 ≤ (ctx.uintArgs 0).toNat := by
        unfold rampArgsCode at hargs
        dsimp only at hargs
        split_ifs at hargs with _ hpoints
        simp only [BitVec.lt_def, not_or, Nat.not_lt] at hpoints
        exact hpoints.1
      obtain ⟨m, hm⟩ := Nat.exists_eq_add_of_le' (show 1 ≤ (ctx.uintArgs 0).toNat by omega)
      rw [hm] at hrest₃ ⊢
      rw [Nat.add_sub_cancel]
      have hloop := rampPoints_configures ctx 0 m
      rw [Nat.zero_add] at hloop
      have htail := configures_bind hloop fun _ => configures_bind (f := id)
        (configures_call (c := .fclose "sweep_log.csv") rfl) fun _ => configures_bind_pure
          (configures_execute (hrst b.config.regs.dac1DatSelR b.config.regs.dac2DatSelR
            b.config.regs.pidSelR) (decode_configIo _ _ _ _))
          fun _ => (⟨SweepRampE.ok.code, []⟩ : Reply F).pushCtxCb (.uint (ctx.uintArgs 0))
            "NUM_POINTS_CB"
      have hstart := congrArg Board.config hsame
      constructor
      · rw [htail _ _ _ _ _ hstart hrest₃ hf₅, hconfig₂]
        by_cases hdac : rampDac ctx = 1#1
        · simp [CmdView.run, CmdView.exec, hdac]
        · simp [CmdView.run, CmdView.exec, hdac]
      · rcases performs_bind.mp hrest₃ with ⟨_, _, _, -, hrest₄, -⟩
        rcases performs_bind.mp hrest₄ with ⟨_, _, _, -, hrest₅, -⟩
        rcases performs_bind.mp hrest₅ with ⟨_, _, _, -, hreply, -⟩
        rw [(performs_pure.mp hreply).2]
        rfl
  | false =>
      rcases performs_pure.mp hrest₃ with ⟨rfl, rfl⟩
      cases hf₅
      have hfailed : fileOpened "sweep_log.csv"
          (tr₁ ++ (tr₂ ++ [⟨.fopen "sweep_log.csv", false⟩])) = false := by
        rw [Bool.eq_false_iff, Ne, fileOpened_iff]
        simp only [List.mem_append, List.mem_singleton]
        rintro (hmem | hmem | hmem)
        · exact hquiet₁ _ hmem
        · exact hquiet₂ _ hmem
        · cases hmem
      rw [hfailed, if_neg Bool.false_ne_true, if_neg Bool.false_ne_true, hsame, hconfig₂]
      exact ⟨rfl, rfl⟩

end MixedPrecision

end Handlers

/-! ## The store is implemented -/

section Store

/-- Commands that change only a group of the settings, in any order. -/
theorem settingsOf_foldl {α : Type} (put : Settings → α → Settings) {cmds : List (BitVec 32)}
    (h : ∀ w ∈ cmds, ∀ c x, put (settingsOf (exec w c)) x = put (settingsOf c) x) (c : Config)
    (x : α) :
    put (settingsOf (cmds.foldl (fun c w => exec w c) c)) x = put (settingsOf c) x := by
  induction cmds generalizing c with
  | nil => rfl
  | cons w cmds ih =>
      rw [List.foldl_cons, ih fun w' hw' => h w' (List.mem_cons_of_mem w hw')]
      exact h w List.mem_cons_self c x

/-- Of the settings the registers do not depend on the converters. -/
theorem regs_foldl_exec (cmds : List (BitVec 32)) (c : Config) :
    (cmds.foldl (fun c w => exec w c) c).regs = cmds.foldl (fun r w => execRegs w r) c.regs := by
  induction cmds generalizing c with
  | nil => rfl
  | cons w cmds ih => rw [List.foldl_cons, ih, exec_regs, List.foldl_cons]

/-- The writes of a request for the controller replace its settings. -/
theorem settingsOf_foldl_pid (q : PidRequest) (c : Config) :
    settingsOf ((pidOrder.map (pidWrite q)).foldl (fun c w => exec w c) c) =
      { settingsOf c with pid := PidRequest.settings q } := by
  have hwrite : ∀ w ∈ pidOrder.map (pidWrite q), ∀ c p,
      { settingsOf (exec w c) with pid := p } = { settingsOf c with pid := p } := by
    intro w hw c p
    rcases List.mem_map.mp hw with ⟨sel, -, rfl⟩
    rw [exec, pidWrite, cmdW_setPidWord, execRegs_setPidWord]
    cases sel <;> rfl
  have hothers := settingsOf_foldl (fun s p => { s with pid := p }) hwrite c (PidRequest.settings q)
  have hholds : ∀ sel, Holds q
      ((pidOrder.map (pidWrite q)).foldl (fun c w => exec w c) c).regs sel := by
    intro sel
    rw [regs_foldl_exec, holds_foldl]
    exact .inl (by cases sel <;> decide)
  rw [← hothers]
  generalize (pidOrder.map (pidWrite q)).foldl (fun c w => exec w c) c = c' at hholds ⊢
  have hpid : (settingsOf c').pid = PidRequest.settings q := by
    have hkp : c'.regs.kpR = q.kpI := hholds .kp
    have hkd : c'.regs.kdR = q.kdI := hholds .kd
    have hki : c'.regs.kiR = q.kiI := hholds .ki
    have hdec : c'.regs.decR = q.dec.setWidth 14 := hholds .dec
    have hsp : c'.regs.spR = q.spI.setWidth 14 := hholds .sp
    have halpha : c'.regs.alphaR = q.alpha.setWidth 4 := hholds .alpha
    have hsat : c'.regs.satwidthR = q.sat.setWidth 5 := hholds .sat
    have hen : c'.regs.pidEnableR = q.en.getLsbD 0 := hholds .en
    have hgain : c'.regs.gainR = q.gainI := hholds .gain
    have hbias : c'.regs.biasR = -q.biasI.setWidth 14 := hholds .bias
    have hegain : c'.regs.egainR = q.egainI := hholds .egain
    rw [settingsOf, PidSettings.ofRegs, hkp, hkd, hki, hdec, hsp, halpha, hsat, hen, hgain, hbias,
      hegain, BitVec.neg_neg, PidRequest.settings]
  rw [← hpid]

/-- Writes of the oscillator change its settings only. -/
theorem settingsOf_ncoWrites (writes : List (NcoCoeffSelE × BitVec 16)) (c : Config)
    (tuple : NcoTuple) (en : Bool) :
    { settingsOf ((writes.map ncoWrite).foldl (fun c w => exec w c) c) with
      nco := tuple, ncoEn := en } = { settingsOf c with nco := tuple, ncoEn := en } := by
  refine settingsOf_foldl (fun s (x : NcoTuple × Bool) => { s with nco := x.1, ncoEn := x.2 })
    (fun w hw c x => ?_) c (tuple, en)
  rcases List.mem_map.mp hw with ⟨⟨sel, payload⟩, -, rfl⟩
  rw [exec, ncoWrite, cmdW_setNcoWord, execRegs_setNcoWord]
  cases sel <;> rfl

/-- The writes of a request for the oscillator replace its settings. -/
theorem settingsOf_foldl_nco {F : Type} [MixedPrecision F] (ctx : CmdCtx F) (c : Config) :
    settingsOf (((ncoWrites ctx).map ncoWrite).foldl (fun c w => exec w c) c) =
      { settingsOf c with nco := requestTuple ctx, ncoEn := (ctx.uintArgs 0).getLsbD 0 } := by
  have hothers := settingsOf_ncoWrites (ncoWrites ctx) c (requestTuple ctx)
    ((ctx.uintArgs 0).getLsbD 0)
  have htuple := ncoTuple_after_ncoWrites ctx c.regs
  have hen : (after execRegs ((ncoWrites ctx).map ncoWrite) c.regs 6).ncoEnR =
      (ctx.uintArgs 0).getLsbD 0 := by
    rw [after_ncoWrite]
    change ((ctx.uintArgs 0).setWidth 16).getLsbD 0 = (ctx.uintArgs 0).getLsbD 0
    simp
  have hlen : ((ncoWrites ctx).map ncoWrite).length = 6 := by
    rw [List.length_map, length_ncoWrites]
  rw [← hlen, after_length, ← regs_foldl_exec] at htuple hen
  dsimp only at hothers
  rw [← hothers]
  generalize ((ncoWrites ctx).map ncoWrite).foldl (fun c w => exec w c) c = c' at htuple hen ⊢
  rw [← htuple, ← hen]
  rfl

/-- Only the first write of a request for the filter changes the settings. -/
theorem settingsOf_enabledWrite {cs : List (BitVec 16)} {w : BitVec 32} (hw : w ∈ enabledWrites cs)
    (c : Config) : settingsOf (exec w c) = settingsOf c := by
  rcases exists_of_mem_enabledWrites hw with ⟨sel, payload, rfl, hsel, -⟩
  rw [exec, cmdW_setFirWord, execRegs_setFirWord]
  cases sel with
  | inputSel => exact absurd rfl hsel
  | _ => rfl

/-- The writes of a request for the filter replace its input. -/
theorem settingsOf_foldl_fir (inputSel : BitVec 16) (cs : List (BitVec 16)) (c : Config) :
    settingsOf ((firWrites inputSel cs).foldl (fun c w => exec w c) c) =
      { settingsOf c with firInputSel := inputSel.setWidth 3 } := by
  rw [firWrites_eq, List.foldl_cons, exec, cmdW_setFirWord, execRegs_setFirWord]
  exact settingsOf_foldl (fun s (_ : Unit) => s) (fun w hw c _ => settingsOf_enabledWrite hw c) _ ()

theorem settingsOf_run_dac (s : BitVec 1) (code : BitVec 14) (c : Config) :
    settingsOf ((CmdView.dacCmd code s).run c) = (settingsOf c).setDac s code := by
  rw [CmdView.run, Settings.setDac]
  split_ifs <;> rfl

variable {F : Type} [MixedPrecision F]

/-- What a handler does to the registers is what its request does to the store. -/
theorem handler_settings (h : Handler) {stack : BitVec 32} {ctx : CmdCtx F} {tr : Trace}
    {reply : Reply F} {b b' : Board} (hrun : Performs (h.run stack ctx) tr reply)
    (hfollows : Follows board b tr b') :
    settingsOf b'.config =
      (settingsOf b.config).apply stack ctx (fileOpened "sweep_log.csv" tr) h := by
  have hconfigures : ∀ {f : Config → Config}, Configures (h.run stack ctx) f →
      b'.config = f b.config := fun hf => hf b.config b tr reply b' rfl hrun hfollows
  have hrejected : ∀ {r : Reply F}, h.run stack ctx = pure r → b'.config = b.config :=
    fun hpure => hconfigures (hpure ▸ configures_pure _)
  cases h with
  | setLed =>
      by_cases hargs : 255#32 < ctx.uintArgs 0
      · rw [hrejected (if_pos hargs), Settings.apply, if_pos hargs]
      · rw [hconfigures (cmdSetLed_configures hargs), Settings.apply, if_neg hargs]
        rfl
  | resetFpga =>
      rw [hconfigures cmdResetFpga_configures]
      rfl
  | setDac =>
      rw [hconfigures (cmdSetDac_configures ctx), settingsOf_run_dac]
      rfl
  | getAdc =>
      rw [hconfigures cmdGetAdc_configures]
      rfl
  | checkSigned =>
      rw [hconfigures (cmdCheckSigned_configures ctx)]
      rfl
  | setRot =>
      rw [hconfigures (cmdSetRot_configures ctx), rotCommands, List.foldl_cons, List.foldl_cons,
        List.foldl_cons, List.foldl_nil, ← exec_strobe 1#1 (rotWord 0#1 _),
        exec_of_decode (decode_rotWord _ _), ← exec_strobe 1#1 (rotWord 1#1 _),
        exec_of_decode (decode_rotWord _ _), ← exec_strobe 1#1 (cmdWord .commitRotCoeffs),
        exec_of_decode (decode_cmdWord 1#1).2.2]
      rfl
  | getFrame =>
      rw [hconfigures (cmdGetFrame_configures ctx), List.foldl_cons, List.foldl_cons,
        List.foldl_nil, ← exec_strobe 1#1 (cmdWord .idle), exec_of_decode (decode_cmdWord 1#1).1,
        ← exec_strobe 1#1 (getFrameWord _ _), exec_of_decode (decode_getFrameWord _ _)]
      rfl
  | testFrame =>
      rw [hrejected rfl]
      rfl
  | setPid => rw [hconfigures (cmdSetPid_configures ctx), settingsOf_foldl_pid, Settings.apply]
  | setFir =>
      rw [hconfigures (cmdSetFir_configures ctx), Settings.apply, requestWrites]
      split_ifs
      · rw [settingsOf_foldl_fir, BitVec.setWidth_setWidth_of_le _ (by omega)]
      · rfl
  | setNco =>
      rw [hconfigures (cmdSetNco_configures ctx), Settings.apply]
      split_ifs
      · exact settingsOf_foldl_nco ctx _
      · rfl
  | configIo =>
      rw [Settings.apply]
      by_cases hargs : ioArgsCode ctx = .ok
      · rw [if_pos hargs]
        cases hstack : rstBit stack with
        | true =>
            rw [hconfigures (cmdConfigIo_resets hargs hstack)]
            rfl
        | false =>
            rw [hconfigures (cmdConfigIo_configures stack hargs hstack)]
            rfl
      · rw [if_neg hargs, hrejected (if_pos hargs)]
  | configDemod =>
      rw [Settings.apply]
      by_cases href : 1#32 < ctx.uintArgs 0
      · rw [if_pos (.inl href), hrejected (if_pos href)]
      · by_cases hin : 6#32 < ctx.uintArgs 1
        · rw [if_pos (.inr hin), hrejected ((if_neg href).trans (if_pos hin))]
        · rw [if_neg (not_or.mpr ⟨href, hin⟩),
            hconfigures (cmdConfigDemod_configures (not_or.mpr ⟨href, hin⟩))]
          have hbit : ((ctx.uintArgs 0).setWidth 1).getLsbD 0 = (ctx.uintArgs 0).getLsbD 0 := by
            simp
          have hmask : (ctx.uintArgs 2 &&& 0xF#32).setWidth 4 = (ctx.uintArgs 2).setWidth 4 := by
            rw [BitVec.setWidth_and]
            exact BitVec.and_allOnes
          rw [CmdView.run, hmask, CmdView.exec, hbit]
          · rfl
          · intro _ _ h
            cases h
  | sweepRamp =>
      rw [Settings.apply]
      by_cases hargs : rampArgsCode ctx = .ok
      · rw [if_pos hargs, (performs_ramp hargs hrun hfollows).1]
        cases fileOpened "sweep_log.csv" tr with
        | true => exact settingsOf_run_dac _ _ _
        | false => rfl
      · rw [if_neg hargs, hrejected (if_pos hargs)]

/-- What a text does to the registers is what it does to the store. -/
theorem serve_settings {stack : BitVec 32} {inbuff : List Char} {tr : Trace}
    {reply : Option (List Char)} {b b' : Board}
    (hrun : Performs (Server.serve F stack inbuff) tr reply) (hfollows : Follows board b tr b') :
    settingsOf b'.config =
      (settingsOf b.config).serve F stack (fileOpened "sweep_log.csv" tr) inbuff := by
  rw [Settings.serve]
  cases hload : (loadContext (cString inbuff.dropLast) : Option (LoadedCtx F)) with
  | none =>
      rcases (performs_serve_none hload).mp hrun with ⟨rfl, -⟩
      cases hfollows
      rfl
  | some ctx =>
      rcases performs_serve_some hload hrun with ⟨e, r, he, hhandler, -⟩ | ⟨hnone, rfl, -⟩
      · dsimp only
        rw [he.1]
        dsimp only
        rw [if_pos he.2]
        exact handler_settings e.func hhandler hfollows
      · cases hfollows
        dsimp only
        cases hentry : findEntry ctx.name with
        | none => rfl
        | some e => exact (if_neg fun hcheck => hnone e ⟨hentry, hcheck⟩).symm

/-- A sequence of requests on the register file. -/
theorem requests_settings (requests : List (Request F)) {b b' : Board}
    (hfollows : Follows board b (requests.flatMap Request.trace) b') :
    settingsOf b'.config = requests.foldl (fun s q => q.settings s) (settingsOf b.config) := by
  induction requests generalizing b with
  | nil =>
      cases hfollows
      rfl
  | cons q requests ih =>
      rw [List.flatMap_cons] at hfollows
      rcases follows_append.mp hfollows with ⟨b₁, hfirst, hrest⟩
      rw [ih hrest, serve_settings q.served hfirst]
      rfl

/-- A core that has been left alone for eight clock periods has the registers of the board. -/
theorem config_of_represents {rom : Nco.Rom} {b : Board} {g : Gpio} (h : Represents rom b g) {n : ℕ}
    (hn : 8 ≤ n) {s : State} (hpasses : Passes rom n g s) : s.config = b.config := by
  rcases h.caughtUp hn hpasses with ⟨-, rfl, hreset⟩ | ⟨-, -, hrests, -⟩
  · exact hreset.config
  · exact hrests.config

/-- After any sequence of texts, from reset, the settings of the core are those of the store, once
the core has been left alone for eight clock periods. -/
theorem session_settings (rom : Nco.Rom) (requests : List (Request F)) {g : Gpio}
    (hfollows : Follows (slowGpio rom) ⟨heldInReset rom, 0x80000000#32⟩
      (requests.flatMap Request.trace) g) {n : ℕ} (hn : 8 ≤ n) {s : State}
    (hpasses : Passes rom n g s) :
    settingsOf s.config = requests.foldl (fun x q => q.settings x) Settings.reset := by
  rcases slowGpio_refines_reset hfollows with ⟨b, hboard, hrepresents⟩
  rw [config_of_represents hrepresents hn hpasses]
  exact requests_settings requests hboard

end Store

/-! ### A session of three texts -/

/-- The bus answers every call. -/
theorem exists_slowGpio (rom : Nco.Rom) (g : Gpio) (c : Call) :
    ∃ r g', slowGpio rom g c r g' := by
  have hpass : ∀ n, Passes rom n g
      (run (step rom) g.core (fun _ => ⟨g.bus, 0#14, 0#14, true, true⟩) n) :=
    fun n => ⟨_, fun _ _ => rfl, rfl⟩
  cases c with
  | pdhSendCmd raw => exact ⟨(), ⟨_, raw⟩, ⟨8, le_rfl, hpass 8⟩, rfl⟩
  | pdhGetCallback => exact ⟨_, ⟨_, g.bus⟩, ⟨8, le_rfl, hpass 8⟩, rfl, rfl⟩
  | _ => exact ⟨default, ⟨_, g.bus⟩, ⟨0, hpass 0⟩, rfl⟩

/-- Any texts can be served one after the other. -/
theorem exists_requests {F : Type} [MixedPrecision F] (rom : Nco.Rom) (stack : BitVec 32)
    (texts : List (List Char)) (g : Gpio) :
    ∃ (requests : List (Request F)) (g' : Gpio),
      requests.map (fun q => (q.stack, q.inbuff)) = texts.map (fun text => (stack, text)) ∧
        Follows (slowGpio rom) g (requests.flatMap Request.trace) g' := by
  induction texts generalizing g with
  | nil => exact ⟨[], g, rfl, .nil g⟩
  | cons text texts ih =>
      rcases exists_run (exists_slowGpio rom) (Server.serve F stack text) g with
        ⟨tr, reply, g₁, hrun, hfirst⟩
      rcases ih g₁ with ⟨requests, g', hsame, hrest⟩
      refine ⟨⟨stack, text, tr, reply, hrun⟩ :: requests, g', ?_, ?_⟩
      · rw [List.map_cons, List.map_cons, hsame]
      · rw [List.flatMap_cons]
        exact follows_append.mpr ⟨g₁, hfirst, hrest⟩

/-- A list with an image of three elements has three elements. -/
theorem exists_of_map_eq_three {α β : Type} {f : α → β} {xs : List α} {b₁ b₂ b₃ : β}
    (hmap : xs.map f = [b₁, b₂, b₃]) :
    ∃ x₁ x₂ x₃, xs = [x₁, x₂, x₃] ∧ f x₁ = b₁ ∧ f x₂ = b₂ ∧ f x₃ = b₃ := by
  have hlength : xs.length = 3 := by
    rw [← List.length_map f, hmap]
    rfl
  rcases List.length_eq_three.mp hlength with ⟨x₁, x₂, x₃, rfl⟩
  simp only [List.map_cons, List.map_nil, List.cons.injEq] at hmap
  exact ⟨x₁, x₂, x₃, rfl, hmap.1, hmap.2.1, hmap.2.2.1⟩

/-- A text that lights LEDs, one that asks for more LEDs than there are, and one that routes the
controller to the first converter. -/
def threeTexts : List (List Char) :=
  ["CMD:set_led\nU:5\n".toList, "CMD:set_led\nU:300\n".toList, "CMD:config_io\nU:1,0,2\n".toList]

/-- The first and the third of the texts are stored, the second is not. -/
theorem session_settings_threeTexts :
    ∃ (requests : List (Request ℚ)) (g : Gpio) (s : State),
      requests.map (fun q => (q.stack, q.inbuff)) = threeTexts.map (fun text => (0#32, text)) ∧
      Follows (slowGpio fun _ => 0#16) ⟨heldInReset fun _ => 0#16, 0x80000000#32⟩
        (requests.flatMap Request.trace) g ∧
      Passes (fun _ => 0#16) 8 g s ∧
      settingsOf s.config =
        { Settings.reset with
          led := 5#8
          dac1DatSel := 1#3
          dac2DatSel := 0#3
          pidDatSel := 2#3 } := by
  rcases exists_requests (F := ℚ) (fun _ => 0#16) 0#32 threeTexts
    ⟨heldInReset fun _ => 0#16, 0x80000000#32⟩ with ⟨requests, g, hsame, hfollows⟩
  have hpasses : Passes (fun _ => 0#16) 8 g
      (run (step fun _ => 0#16) g.core (fun _ => ⟨g.bus, 0#14, 0#14, true, true⟩) 8) :=
    ⟨_, fun _ _ => rfl, rfl⟩
  have hsettings := session_settings _ requests hfollows le_rfl hpasses
  refine ⟨requests, g, _, hsame, hfollows, hpasses, hsettings.trans ?_⟩
  rcases exists_of_map_eq_three hsame with ⟨q₁, q₂, q₃, rfl, h₁, h₂, h₃⟩
  simp only [Prod.mk.injEq] at h₁ h₂ h₃
  have hstore : ∀ ramp₁ ramp₂ ramp₃, ((Settings.reset.serve ℚ 0#32 ramp₁ threeTexts[0]).serve ℚ 0#32
      ramp₂ threeTexts[1]).serve ℚ 0#32 ramp₃ threeTexts[2] =
        { Settings.reset with
          led := 5#8
          dac1DatSel := 1#3
          dac2DatSel := 0#3
          pidDatSel := 2#3 } := by
    decide +kernel
  simp only [List.foldl_cons, List.foldl_nil, Request.settings, h₁, h₂, h₃]
  exact hstore _ _ _

end Requests
end PoundDreverHall
