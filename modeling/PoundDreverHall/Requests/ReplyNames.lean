import PoundDreverHall.Requests.Behaviour

/-!
# Requests - the names in a reply

A handler pushes its values one after the other, under names that do not depend on what the
device answers.  No handler uses a name twice, so that the client finds every value.

Main results:

- Definition {lit}`Returns`: what a routine returns, whatever the device answers.
- Theorem {lit}`reply_distinct`: the names in the reply of a handler are distinct.
-/

namespace PoundDreverHall
namespace Requests

open Device Device.Program Server

/-! ## What a routine returns -/

section Returns

variable {α β : Type}

/-- Every run of the routine returns a value with property {lit}`Q`. -/
def Returns (p : Routine α) (Q : α → Prop) : Prop :=
  ∀ tr a, Performs p tr a → Q a

variable {P : α → Prop} {Q : β → Prop}

/-- A value that is returned at once. -/
theorem returns_pure {b : β} (h : Q b) : Returns (pure b) Q := by
  intro tr a hrun
  rcases performs_pure.mp hrun with ⟨-, rfl⟩
  exact h

/-- What comes second may rely on what the first routine returns. -/
theorem returns_bind {p : Routine α} {f : α → Routine β} (hp : Returns p P)
    (hf : ∀ a, P a → Returns (f a) Q) : Returns (p >>= f) Q := by
  intro tr b hrun
  rcases performs_bind.mp hrun with ⟨tr₁, a, tr₂, h₁, h₂, -⟩
  exact hf a (hp tr₁ a h₁) tr₂ b h₂

/-- What comes first makes no difference. -/
theorem returns_after {p : Routine α} {f : α → Routine β} (hf : ∀ a, Returns (f a) Q) :
    Returns (p >>= f) Q :=
  returns_bind (P := fun _ => True) (fun _ _ _ => trivial) fun a _ => hf a

end Returns

/-! ## Names -/

section Names

variable {F : Type}

/-- The names of the values in a reply. -/
def outputNames (r : Reply F) : List String :=
  r.outputItems.map fun o => o.name

@[simp]
theorem outputNames_nil (code : ℕ) : outputNames (⟨code, []⟩ : Reply F) = [] :=
  rfl

/-- A value that is pushed adds its name at the end. -/
@[simp]
theorem outputNames_pushCtxCb (r : Reply F) (data : OutputData F) (name : String) :
    outputNames (r.pushCtxCb data name) = outputNames r ++ [name] :=
  List.map_append

/-- A check of a callback pushes nothing. -/
@[simp]
theorem outputNames_validate {α : Type} [DecidableEq α] (r : Reply F) (cb expected : α)
    (failCode : ℕ) : outputNames (r.validate cb expected failCode) = outputNames r := by
  unfold outputNames Reply.validate
  rfl

@[simp]
theorem outputNames_validateCmd (r : Reply F) (cb cmd : BitVec 32) :
    outputNames (r.validateCmd cb cmd) = outputNames r := by
  unfold Reply.validateCmd
  exact outputNames_validate r _ _ _

/-- No name is used twice. -/
def Distinct (r : Reply F) : Prop :=
  (outputNames r).Nodup

theorem distinct_nil (code : ℕ) : Distinct (⟨code, []⟩ : Reply F) :=
  List.nodup_nil

/-- The reply has the given names. -/
abbrev Named (names : List String) (r : Reply F) : Prop :=
  outputNames r = names

/-- A reply whose names are known needs only a look at them. -/
theorem distinct_of_named (names : List String) {r : Reply F} (h : Named names r)
    (hnames : names.Nodup) : Distinct r := by
  rwa [Distinct, h]

end Names

/-! ## The controller and the filter -/

section SinglePrecision

variable {F : Type}

/-- `cmd_set_led`, rejected or not. -/
theorem cmdSetLed_distinct (ctx : CmdCtx F) : Returns (cmdSetLed ctx) Distinct := by
  dsimp only [cmdSetLed]
  split_ifs
  · exact returns_pure (distinct_nil _)
  · refine returns_after fun cb => returns_pure ?_
    apply distinct_of_named ["LED_CODE_CB", "CMD_CB"]
    · simp [Named]
    · decide

variable [SinglePrecision F] (ctx : CmdCtx F) {names : List String} {r : Reply F}

/-- A signed register of the controller adds the name of its echo. -/
theorem setPidInt16_named (sel : PidCoeffSelE) (value : BitVec 16) (scale : ℚ) (name : String)
    (fail : SetPidE) (hr : Named names r) :
    Returns (setPidInt16 sel value scale name fail r) (Named (names ++ [name])) := by
  refine returns_after fun cb => returns_pure ?_
  simpa [Named] using hr

omit [SinglePrecision F] in
/-- So does an unsigned one. -/
theorem setPidUint_named (sel : PidCoeffSelE) (value : BitVec 32) (name : String)
    (fail : SetPidE) (hr : Named names r) :
    Returns (setPidUint sel value name fail r) (Named (names ++ [name])) := by
  refine returns_after fun cb => returns_pure ?_
  simpa [Named] using hr

/-- The eleven registers of `cmd_set_pid` are echoed under eleven names. -/
theorem cmdSetPid_distinct : Returns (cmdSetPid ctx) Distinct := by
  refine returns_bind (setPidInt16_named _ _ _ _ _ (outputNames_nil _)) fun _ h => ?_
  refine returns_bind (setPidInt16_named _ _ _ _ _ h) fun _ h => ?_
  refine returns_bind (setPidInt16_named _ _ _ _ _ h) fun _ h => ?_
  refine returns_bind (setPidUint_named _ _ _ _ h) fun _ h => ?_
  refine returns_bind (setPidInt16_named _ _ _ _ _ h) fun _ h => ?_
  refine returns_bind (setPidUint_named _ _ _ _ h) fun _ h => ?_
  refine returns_bind (setPidUint_named _ _ _ _ h) fun _ h => ?_
  refine returns_bind (setPidUint_named _ _ _ _ h) fun _ h => ?_
  refine returns_bind (setPidInt16_named _ _ _ _ _ h) fun _ h => ?_
  refine returns_bind (setPidInt16_named _ _ _ _ _ h) fun _ h => ?_
  intro tr r hrun
  apply distinct_of_named _ (setPidInt16_named _ _ _ _ _ h tr r hrun)
  decide

omit [SinglePrecision F] in
/-- A filter register is checked and not pushed. -/
theorem setFirReg_named (sel : FirUpdateSelE) (value mask : BitVec 32) (fail : SetFirE)
    (hr : Named names r) : Returns (setFirReg sel value mask fail r) fun x => Named names x.2 :=
  returns_after fun _ => returns_pure hr

/-- The coefficients are checked and not pushed, however many there are. -/
theorem loadCoeffs_named (hr : Named names r) (i n : ℕ) :
    Returns (loadCoeffs ctx r i n) (Named names) := by
  induction n generalizing r i with
  | zero => exact returns_pure hr
  | succ n ih =>
      refine returns_bind (setFirReg_named _ _ _ _ hr) fun _ h => ?_
      refine returns_bind (setFirReg_named _ _ _ _ h) fun _ h => ?_
      exact ih h _

/-- `cmd_set_fir` names the echoes of the input selection and of the three write enables. -/
theorem cmdSetFir_distinct : Returns (cmdSetFir ctx) Distinct := by
  dsimp only [cmdSetFir]
  split_ifs
  · exact returns_pure (distinct_nil _)
  · have hpush : ∀ {r : Reply F} {names : List String} (echo : BitVec 32) (name : String),
        Named names r → Named (names ++ [name]) (r.pushCtxCb (.uint echo) name) := by
      intro r names echo name hr
      rw [Named, outputNames_pushCtxCb, hr]
    refine returns_bind (setFirReg_named _ _ _ _ (outputNames_nil _)) fun x h => ?_
    refine returns_bind (setFirReg_named _ _ _ _ (hpush x.1 _ h)) fun y h => ?_
    refine returns_bind (loadCoeffs_named ctx (hpush y.1 _ h) _ _) fun _ h => ?_
    refine returns_bind (setFirReg_named _ _ _ _ h) fun z h => ?_
    refine returns_bind (setFirReg_named _ _ _ _ (hpush z.1 _ h)) fun _ h => returns_pure ?_
    apply distinct_of_named _ (hpush _ _ h)
    decide

end SinglePrecision

/-! ## The other handlers -/

section MixedPrecision

variable {F : Type}

/-- `cmd_get_frame` names the four parts of its callback, then its own code. -/
theorem cmdGetFrame_distinct [SinglePrecision F] (ctx : CmdCtx F) :
    Returns (cmdGetFrame ctx) Distinct := by
  rw [cmdGetFrame_eq]
  refine returns_after fun cb => returns_after fun opened => ?_
  generalize (if opened = true then _ else 1) = code
  have hreply : ∀ code : ℕ, Distinct (⟨code, (getFrameReply (F := F) (decimationOf ctx)
      (ctx.uintArgs 1) cb).outputItems ++
        [⟨"return_code", .uint (BitVec.ofNat 32 code)⟩]⟩ : Reply F) := by
    intro code
    apply distinct_of_named ["DMA_ENGAGED_CB", "DECIMATION_CODE_CB", "FRAME_CODE_CB",
      "CMD_CB", "return_code"]
    · rfl
    · decide
  dsimp only
  split_ifs
  · exact returns_after fun _ => returns_after fun _ => returns_pure (hreply _)
  · exact returns_pure (hreply _)

/-- `cmd_get_adc` names the codes of both inputs, then their voltages. -/
theorem cmdGetAdc_distinct [MixedPrecision F] :
    Returns (cmdGetAdc : Routine (Reply F)) Distinct := by
  refine returns_after fun cb => returns_pure ?_
  apply distinct_of_named ["IN1", "IN2", "IN1_V", "IN2_V", "CMD_CB"]
  · simp [Named]
  · decide

theorem cmdCheckSigned_distinct (ctx : CmdCtx F) : Returns (cmdCheckSigned ctx) Distinct := by
  refine returns_after fun cb => returns_pure ?_
  apply distinct_of_named ["REG_SEL_CB", "REG_VALUE_CB", "CMD_CB"]
  · simp [Named]
  · decide

/-- `cmd_reset_fpga` pushes one value. -/
theorem cmdResetFpga_distinct : Returns (cmdResetFpga : Routine (Reply F)) Distinct := by
  refine returns_after fun _ => returns_after fun _ => returns_after fun cb => returns_pure ?_
  exact List.nodup_singleton _

/-- `cmd_config_io` names the three selectors of its callback. -/
theorem cmdConfigIo_distinct (stack : BitVec 32) (ctx : CmdCtx F) :
    Returns (cmdConfigIo stack ctx) Distinct := by
  dsimp only [cmdConfigIo]
  split_ifs
  · exact returns_pure (distinct_nil _)
  · refine returns_after fun cb => returns_pure ?_
    apply distinct_of_named ["DAC1_DAT_SEL_CB", "DAC2_DAT_SEL_CB", "PID_DAT_SEL_CB"]
    · simp [Named]
    · decide

/-- `cmd_config_demod` names the three settings of its callback. -/
theorem cmdConfigDemod_distinct (ctx : CmdCtx F) : Returns (cmdConfigDemod ctx) Distinct := by
  dsimp only [cmdConfigDemod]
  split_ifs
  · exact returns_pure (distinct_nil _)
  · exact returns_pure (distinct_nil _)
  · refine returns_after fun cb => returns_pure ?_
    apply distinct_of_named ["REF_SEL_CB", "IN_SEL_CB", "LPF_ALPHA_CB"]
    · simp [Named]
    · decide

variable [MixedPrecision F] (ctx : CmdCtx F)

theorem cmdSetDac_distinct : Returns (cmdSetDac ctx) Distinct := by
  refine returns_after fun cb => returns_pure ?_
  apply distinct_of_named ["DAC1_CODE_CB", "DAC2_CODE_CB"]
  · simp [Named]
  · decide

/-- `cmd_set_rot` names the two coefficients and the two signals. -/
theorem cmdSetRot_distinct : Returns (cmdSetRot ctx) Distinct := by
  refine returns_after fun _ => returns_after fun _ => returns_after fun _ => ?_
  refine returns_after fun _ => returns_after fun _ => returns_after fun _ => returns_pure ?_
  apply distinct_of_named ["COS_CB", "SIN_CB", "I_FEED_CB", "Q_FEED_CB"]
  · simp [Named]
  · decide

/-- The four values that `cmd_set_nco` computes from the echoes. -/
theorem pushNcoValues_named {names : List String} {r : Reply F} (hr : Named names r)
    (freq shiftDeg : F) (q : Quadrant) (echoStride echoShift : BitVec 32) :
    Named (names ++ ["REGISTERED_PHASE_SHIFT", "REGISTERED_SHIFT_ERROR", "REGISTERED_FREQ",
      "REGISTERED_FREQ_ERROR"]) (r.pushNcoValues freq shiftDeg q echoStride echoShift) := by
  simp only [Named, Reply.pushNcoValues, outputNames_pushCtxCb, List.append_assoc] at hr ⊢
  rw [hr]
  rfl

/-- `cmd_set_nco` names its five echoes and the four values computed from them. -/
theorem cmdSetNco_distinct : Returns (cmdSetNco ctx) Distinct := by
  dsimp only [cmdSetNco]
  split_ifs
  · exact returns_pure (distinct_nil _)
  · refine returns_after fun _ => returns_after fun _ => returns_after fun _ => ?_
    refine returns_after fun _ => returns_after fun _ => returns_after fun _ => returns_pure ?_
    have hpushed : ∀ {r : Reply F}, Named ["STRIDE_CB", "SHIFT_CB", "SUB_CB", "INV_CB", "EN_CB"] r →
        ∀ shiftDeg q echoStride echoShift,
          Distinct (r.pushNcoValues (ctx.floatArgs 0) shiftDeg q echoStride echoShift) := by
      intro r hr shiftDeg q echoStride echoShift
      apply distinct_of_named _ (pushNcoValues_named hr _ _ _ _ _)
      decide
    apply hpushed
    simp [Named]

/-- `cmd_sweep_ramp` pushes one value, or none when the ramp is not run. -/
theorem cmdSweepRamp_distinct : Returns (cmdSweepRamp ctx) Distinct := by
  dsimp only [cmdSweepRamp]
  split_ifs
  · exact returns_pure (distinct_nil _)
  · refine returns_after fun _ => returns_after fun _ => returns_after fun opened => ?_
    split_ifs
    · refine returns_after fun _ => returns_after fun _ => returns_after fun _ => returns_pure ?_
      exact List.nodup_singleton _
    · exact returns_pure (distinct_nil _)

end MixedPrecision

/-! ## All handlers -/

/-- The names in the reply of a handler are distinct. -/
theorem reply_distinct {F : Type} [MixedPrecision F] (stack : BitVec 32) (ctx : CmdCtx F)
    {h : Handler} {tr : Trace} {r : Reply F} (hrun : Performs (h.run stack ctx) tr r) :
    Distinct r := by
  cases h with
  | setLed => exact cmdSetLed_distinct ctx tr r hrun
  | resetFpga => exact cmdResetFpga_distinct tr r hrun
  | setDac => exact cmdSetDac_distinct ctx tr r hrun
  | getAdc => exact cmdGetAdc_distinct tr r hrun
  | checkSigned => exact cmdCheckSigned_distinct ctx tr r hrun
  | setRot => exact cmdSetRot_distinct ctx tr r hrun
  | getFrame => exact cmdGetFrame_distinct ctx tr r hrun
  | testFrame => exact returns_pure (distinct_nil 0) tr r hrun
  | setPid => exact cmdSetPid_distinct ctx tr r hrun
  | setFir => exact cmdSetFir_distinct ctx tr r hrun
  | setNco => exact cmdSetNco_distinct ctx tr r hrun
  | configIo => exact cmdConfigIo_distinct stack ctx tr r hrun
  | configDemod => exact cmdConfigDemod_distinct ctx tr r hrun
  | sweepRamp => exact cmdSweepRamp_distinct ctx tr r hrun

end Requests
end PoundDreverHall
