import PoundDreverHall.Requests.Answers
import PoundDreverHall.Requests.ReplyNames

/-!
# Requests - the values of a reply

A handler that returns 0 has reported all of its values, and one that rejects its arguments reports
none.  There are few of them and their names are short, so that a reply fits into the buffer of the
server as long as no value is printed with more than 47 characters, which a {lit}`float` never is.

Main results:

- Definition {lit}`valueNames`: the names of the values that a handler reports.
- Theorem {lit}`handler_shaped`: a handler reports all of them, or none and fails.
- Theorem {lit}`responseText_fits`: a reply with such values fits into the buffer.
-/

namespace PoundDreverHall
namespace Requests

open Device Device.Program Server

/-! ## Names -/

/-- The names of the values that a handler reports. -/
def valueNames : Handler → List String
  | .setLed => ["LED_CODE_CB", "CMD_CB"]
  | .resetFpga => ["RST_RAW_CB"]
  | .setDac => ["DAC1_CODE_CB", "DAC2_CODE_CB"]
  | .getAdc => ["IN1", "IN2", "IN1_V", "IN2_V", "CMD_CB"]
  | .checkSigned => ["REG_SEL_CB", "REG_VALUE_CB", "CMD_CB"]
  | .setRot => ["COS_CB", "SIN_CB", "I_FEED_CB", "Q_FEED_CB"]
  | .getFrame =>
      ["DMA_ENGAGED_CB", "DECIMATION_CODE_CB", "FRAME_CODE_CB", "CMD_CB", "return_code"]
  | .testFrame => []
  | .setPid =>
      ["KP_CB", "KD_CB", "KI_CB", "DEC_CB", "SP_CB", "ALPHA_CB", "SAT_CB", "EN_CB", "GAIN_CB",
        "BIAS_CB", "EGAIN_CB"]
  | .setFir => ["INPUT_SEL_CB", "MEM_WEN_EN_CB", "MEM_WEN_DIS_CB", "CHAIN_WEN_CB"]
  | .setNco =>
      ["STRIDE_CB", "SHIFT_CB", "SUB_CB", "INV_CB", "EN_CB", "REGISTERED_PHASE_SHIFT",
        "REGISTERED_SHIFT_ERROR", "REGISTERED_FREQ", "REGISTERED_FREQ_ERROR"]
  | .configIo => ["DAC1_DAT_SEL_CB", "DAC2_DAT_SEL_CB", "PID_DAT_SEL_CB"]
  | .configDemod => ["REF_SEL_CB", "IN_SEL_CB", "LPF_ALPHA_CB"]
  | .sweepRamp => ["NUM_POINTS_CB"]

/-- The reply has all of the names, or none and a failure. -/
def Shaped {F : Type} (names : List String) (r : Reply F) : Prop :=
  outputNames r = [] ∧ r.returnCode ≠ 0 ∨ outputNames r = names

section Shaped

variable {F : Type} {names : List String}

/-- A failure code needs no values. -/
theorem shaped_failed {code : ℕ} (h : code ≠ 0) : Shaped names (⟨code, []⟩ : Reply F) :=
  .inl ⟨outputNames_nil code, h⟩

/-- A reply with all the names. -/
theorem shaped_named {r : Reply F} (h : Named names r) : Shaped names r :=
  .inr h

end Shaped

/-! ## The handlers -/

section Handlers

variable {F : Type}

/-- `cmd_set_led` fails before it pushes a value, or pushes them all. -/
theorem cmdSetLed_shaped (ctx : CmdCtx F) :
    Returns (cmdSetLed ctx) (Shaped (valueNames .setLed)) := by
  dsimp only [cmdSetLed]
  split_ifs
  · exact returns_pure (shaped_failed (by decide))
  · refine returns_after fun cb => returns_pure (shaped_named ?_)
    simp [Named, valueNames]

/-- `cmd_get_frame` pushes all its values, the log opened or not. -/
theorem cmdGetFrame_shaped [SinglePrecision F] (ctx : CmdCtx F) :
    Returns (cmdGetFrame ctx) (Shaped (valueNames .getFrame)) := by
  rw [cmdGetFrame_eq]
  refine returns_after fun cb => returns_after fun opened => ?_
  generalize (if opened = true then _ else 1) = code
  dsimp only
  split_ifs
  · exact returns_after fun _ => returns_after fun _ => returns_pure (shaped_named rfl)
  · exact returns_pure (shaped_named rfl)

/-- `cmd_config_io` checks its arguments before it pushes a value. -/
theorem cmdConfigIo_shaped (stack : BitVec 32) (ctx : CmdCtx F) :
    Returns (cmdConfigIo stack ctx) (Shaped (valueNames .configIo)) := by
  have hcode : ∀ e : ConfigIoE, e ≠ .ok → e.code ≠ 0 := by
    intro e h
    cases e
    all_goals first | exact absurd rfl h | decide
  dsimp only [cmdConfigIo]
  split_ifs with hargs
  · exact returns_pure (shaped_failed (hcode _ hargs))
  · refine returns_after fun cb => returns_pure (shaped_named ?_)
    simp [Named, valueNames]

/-- So does `cmd_config_demod`. -/
theorem cmdConfigDemod_shaped (ctx : CmdCtx F) :
    Returns (cmdConfigDemod ctx) (Shaped (valueNames .configDemod)) := by
  dsimp only [cmdConfigDemod]
  split_ifs
  · exact returns_pure (shaped_failed (by decide))
  · exact returns_pure (shaped_failed (by decide))
  · refine returns_after fun cb => returns_pure (shaped_named ?_)
    simp [Named, valueNames]

section SinglePrecision

variable [SinglePrecision F] (ctx : CmdCtx F)

/-- `cmd_set_pid` pushes all its values, whatever it finds wrong. -/
theorem cmdSetPid_shaped : Returns (cmdSetPid ctx) (Shaped (valueNames .setPid)) := by
  refine returns_bind (setPidInt16_named _ _ _ _ _ (outputNames_nil _)) fun _ h => ?_
  refine returns_bind (setPidInt16_named _ _ _ _ _ h) fun _ h => ?_
  refine returns_bind (setPidInt16_named _ _ _ _ _ h) fun _ h => ?_
  refine returns_bind (setPidUint_named _ _ _ _ h) fun _ h => ?_
  refine returns_bind (setPidInt16_named _ _ _ _ _ h) fun _ h => ?_
  refine returns_bind (setPidUint_named _ _ _ _ h) fun _ h => ?_
  refine returns_bind (setPidUint_named _ _ _ _ h) fun _ h => ?_
  refine returns_bind (setPidUint_named _ _ _ _ h) fun _ h => ?_
  refine returns_bind (setPidInt16_named _ _ _ _ _ h) fun _ h => ?_
  refine returns_bind (setPidInt16_named _ _ _ _ _ h) fun _ h => ?_
  exact fun tr r hrun => shaped_named (setPidInt16_named _ _ _ _ _ h tr r hrun)

/-- `cmd_set_fir` checks its arguments before it pushes a value. -/
theorem cmdSetFir_shaped : Returns (cmdSetFir ctx) (Shaped (valueNames .setFir)) := by
  have hcode : ∀ e : SetFirE, e ≠ .ok → e.code ≠ 0 := by
    intro e h
    cases e
    all_goals first | exact absurd rfl h | decide
  dsimp only [cmdSetFir]
  split_ifs with hargs
  · exact returns_pure (shaped_failed (hcode _ hargs))
  · have hpush : ∀ {r : Reply F} {names : List String} (echo : BitVec 32) (name : String),
        Named names r → Named (names ++ [name]) (r.pushCtxCb (.uint echo) name) := by
      intro r names echo name hr
      rw [Named, outputNames_pushCtxCb, hr]
    refine returns_bind (setFirReg_named _ _ _ _ (outputNames_nil _)) fun x h => ?_
    refine returns_bind (setFirReg_named _ _ _ _ (hpush x.1 _ h)) fun y h => ?_
    refine returns_bind (loadCoeffs_named ctx (hpush y.1 _ h) _ _) fun _ h => ?_
    refine returns_bind (setFirReg_named _ _ _ _ h) fun z h => ?_
    refine returns_bind (setFirReg_named _ _ _ _ (hpush z.1 _ h)) fun _ h => returns_pure ?_
    exact shaped_named (hpush _ _ h)

end SinglePrecision

section MixedPrecision

variable [MixedPrecision F] (ctx : CmdCtx F)

/-- So does `cmd_set_nco`. -/
theorem cmdSetNco_shaped : Returns (cmdSetNco ctx) (Shaped (valueNames .setNco)) := by
  have hcode : ∀ e : SetNcoE, e ≠ .ok → e.code ≠ 0 := by
    intro e h
    cases e
    all_goals first | exact absurd rfl h | decide
  dsimp only [cmdSetNco]
  split_ifs with hargs
  · exact returns_pure (shaped_failed (hcode _ hargs))
  · refine returns_after fun _ => returns_after fun _ => returns_after fun _ => ?_
    refine returns_after fun _ => returns_after fun _ => returns_after fun _ => returns_pure ?_
    have hpushed : ∀ {r : Reply F},
        Named ["STRIDE_CB", "SHIFT_CB", "SUB_CB", "INV_CB", "EN_CB"] r →
        ∀ shiftDeg q echoStride echoShift, Shaped (valueNames .setNco)
          (r.pushNcoValues (ctx.floatArgs 0) shiftDeg q echoStride echoShift) :=
      fun hr _ _ _ _ => shaped_named (pushNcoValues_named hr _ _ _ _ _)
    apply hpushed
    simp [Named]

/-- `cmd_sweep_ramp` pushes its value after the last step of the ramp. -/
theorem cmdSweepRamp_shaped : Returns (cmdSweepRamp ctx) (Shaped (valueNames .sweepRamp)) := by
  have hcode : ∀ e : SweepRampE, e ≠ .ok → e.code ≠ 0 := by
    intro e h
    cases e
    all_goals first | exact absurd rfl h | decide
  dsimp only [cmdSweepRamp]
  split_ifs with hargs
  · exact returns_pure (shaped_failed (hcode _ hargs))
  · refine returns_after fun _ => returns_after fun _ => returns_after fun opened => ?_
    split_ifs
    · refine returns_after fun _ => returns_after fun _ => returns_after fun _ => ?_
      exact returns_pure (shaped_named rfl)
    · exact returns_pure (shaped_failed (by decide))

/-- A handler reports all of its values, or none and fails. -/
theorem handler_shaped (h : Handler) {stack : BitVec 32} {ctx : CmdCtx F} :
    Returns (h.run stack ctx) (Shaped (valueNames h)) := by
  cases h with
  | setLed => exact cmdSetLed_shaped ctx
  | resetFpga =>
      refine returns_after fun _ => returns_after fun _ => returns_after fun cb => ?_
      exact returns_pure (shaped_named rfl)
  | setDac =>
      refine returns_after fun cb => returns_pure (shaped_named ?_)
      simp [Named, valueNames]
  | getAdc =>
      refine returns_after fun cb => returns_pure (shaped_named ?_)
      simp [Named, valueNames]
  | checkSigned =>
      refine returns_after fun cb => returns_pure (shaped_named ?_)
      simp [Named, valueNames]
  | setRot =>
      refine returns_after fun _ => returns_after fun _ => returns_after fun _ => ?_
      refine returns_after fun _ => returns_after fun _ => returns_after fun _ => ?_
      refine returns_pure (shaped_named ?_)
      simp [Named, valueNames]
  | getFrame => exact cmdGetFrame_shaped ctx
  | testFrame => exact returns_pure (shaped_named rfl)
  | setPid => exact cmdSetPid_shaped ctx
  | setFir => exact cmdSetFir_shaped ctx
  | setNco => exact cmdSetNco_shaped ctx
  | configIo => exact cmdConfigIo_shaped stack ctx
  | configDemod => exact cmdConfigDemod_shaped ctx
  | sweepRamp => exact cmdSweepRamp_shaped ctx

end MixedPrecision

end Handlers

/-! ## The buffer -/

section Size

theorem length_toDigits_le {n k : ℕ} (hk : 0 < k) (h : n < 10 ^ k) :
    (Nat.toDigits 10 n).length ≤ k :=
  (Nat.length_toDigits_le_iff (by omega) hk).mpr h

/-- A word has ten decimal digits at most. -/
theorem length_formatUnsigned_le (u : BitVec 32) : (formatUnsigned u).length ≤ 10 :=
  length_toDigits_le (by omega) (by have := u.isLt; omega)

/-- And a sign. -/
theorem length_formatInt_le (i : BitVec 32) : (formatInt i.toInt).length ≤ 11 := by
  have hlow := BitVec.le_toInt i
  have hhigh := BitVec.toInt_lt (x := i)
  have hdigits : (Nat.toDigits 10 i.toInt.natAbs).length ≤ 10 :=
    length_toDigits_le (by omega) (by omega)
  unfold formatInt
  split_ifs
  · rw [List.length_cons]
    omega
  · omega

variable {F : Type} [MixedPrecision F]

/-- No value is longer than the longest number. -/
theorem length_format_le {x : OutputData F}
    (h : ∀ f : F, (MixedPrecision.toText f).length ≤ 47) : x.format.length ≤ 47 := by
  cases x with
  | float f => exact h f
  | int i => exact (length_formatInt_le i).trans (by omega)
  | uint u => exact (length_formatUnsigned_le u).trans (by omega)

/-- The characters that the values under some names take at most. -/
def roomFor (names : List String) : ℕ :=
  (names.map fun name => name.toList.length + 49).sum

/-- The lines of the values fit into the room for their names. -/
theorem length_outputLines_le (h : ∀ f : F, (MixedPrecision.toText f).length ≤ 47)
    (items : List (OutputItem F)) :
    (items.flatMap fun o => replyLine o.name.toList o.data.format).length ≤
      roomFor (items.map fun o => o.name) := by
  induction items with
  | nil => exact Nat.le_refl 0
  | cons o items ih =>
      have hvalue := length_format_le (x := o.data) h
      have hline : (replyLine o.name.toList o.data.format).length ≤ o.name.toList.length + 49 := by
        simp only [replyLine, List.length_append, List.length_cons, List.length_nil]
        omega
      rw [List.flatMap_cons, List.length_append, List.map_cons]
      exact Nat.add_le_add hline ih

/-- The values of every handler are few enough. -/
theorem roomFor_valueNames_le (h : Handler) : roomFor (valueNames h) ≤ 606 := by
  cases h <;> decide +kernel

/-- The codes have two digits at most. -/
theorem answerCode_lt (stack : BitVec 32) (ctx : CmdCtx F) (ramp frame : Bool) (h : Handler) :
    answerCode stack ctx ramp frame h < 100 := by
  have hfir : ∀ e : SetFirE, e.code < 100 := by intro e; cases e <;> decide
  have hnco : ∀ e : SetNcoE, e.code < 100 := by intro e; cases e <;> decide
  have hio : ∀ e : ConfigIoE, e.code < 100 := by intro e; cases e <;> decide
  have hramp : ∀ e : SweepRampE, e.code < 100 := by intro e; cases e <;> decide
  cases h with
  | resetFpga | setDac | getAdc | setRot | testFrame => exact Nat.zero_lt_succ 99
  | setLed | checkSigned | getFrame | setPid | configDemod =>
      simp only [answerCode]
      split_ifs <;> decide
  | setFir =>
      simp only [answerCode]
      split_ifs
      exacts [hfir _, hfir _, Nat.zero_lt_succ 99]
  | setNco =>
      simp only [answerCode]
      split_ifs
      exacts [hnco _, hnco _, hnco _, Nat.zero_lt_succ 99]
  | configIo =>
      simp only [answerCode]
      split_ifs
      exacts [hio _, by decide, Nat.zero_lt_succ 99]
  | sweepRamp =>
      simp only [answerCode]
      split_ifs
      exacts [hramp _, Nat.zero_lt_succ 99, hramp _]

/-- A reply with the values of a handler fits into the buffer. -/
theorem responseText_fits (hchars : ∀ f : F, (MixedPrecision.toText f).length ≤ 47)
    {name : List Char} (hname : name.length ≤ 255) {h : Handler} {r : Reply F}
    (hr : Shaped (valueNames h) r) (hcode : r.returnCode < 100) :
    (responseText name r).length < 1024 := by
  have hlines := length_outputLines_le hchars r.outputItems
  have hroom : roomFor (outputNames r) ≤ 606 := by
    rcases hr with ⟨hnil, -⟩ | hnames
    · rw [hnil]
      exact Nat.zero_le _
    · rw [hnames]
      exact roomFor_valueNames_le h
  have hstatus : (formatInt r.returnCode).length ≤ 2 :=
    length_toDigits_le (by omega) (by simpa using hcode)
  simp only [responseText, replyLine, List.length_append, List.length_cons, List.length_nil]
  change _ ≤ roomFor (outputNames r) at hlines
  simp only [replyLine] at hlines
  omega

end Size

end Requests
end PoundDreverHall
