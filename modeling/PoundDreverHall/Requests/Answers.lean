import PoundDreverHall.Requests.FirEcho
import PoundDreverHall.Requests.PhaseShift
import PoundDreverHall.Requests.Session

/-!
# Requests - the return codes

A handler checks its arguments before it writes, and every echo after it.  On a faithful board an
echo is wrong only where the value that was sent does not fit the register.  This file says which
code every request is answered with, so that the requests that fail are known beforehand.

Main results:

- Definition {lit}`answerCode`: the code of a request, from its arguments and from the files that
  could be opened.
- Theorem {lit}`echoed_of_execute`: the echo of a command on a faithful board.
- Theorem {lit}`handler_code`: every handler returns the code of its request.
-/

namespace PoundDreverHall
namespace Requests

open Clocked Device Device.Program Server PdhCore SinglePrecision MixedPrecision

/-! ## The code of a request -/

section Code

variable {F : Type} [MixedPrecision F]

/-- The code that a request is answered with.  The word {lit}`stack` is what the stack holds
before; {lit}`ramp` and {lit}`frame` say whether the log of a ramp and that of a frame could be
opened. -/
def answerCode (stack : BitVec 32) (ctx : CmdCtx F) (ramp frame : Bool) : Handler → ℕ
  | .resetFpga | .setDac | .getAdc | .setRot | .testFrame => 0
  | .setLed => if 255#32 < ctx.uintArgs 0 then SetLedE.invalidLed.code else 0
  | .checkSigned => if 31#32 < ctx.uintArgs 0 then CheckSignedE.invalidRegSelCb.code else 0
  | .getFrame =>
      if !frame then 1
      else if 15#32 < ctx.uintArgs 1 then GetFrameE.invalidCode.code
      else if 0x3FFFFF#32 < ctx.uintArgs 0 then GetFrameE.invalidDec.code
      else 0
  | .setPid => if 1#32 < ctx.uintArgs 3 then SetPidE.invalidEn.code else 0
  | .setFir =>
      if firArgsCode ctx ≠ .ok then (firArgsCode ctx).code
      else if 32 < ctx.numFloats then SetFirE.addrCbFail.code
      else 0
  | .setNco =>
      if ncoArgsCode ctx ≠ .ok then (ncoArgsCode ctx).code
      else if 1#32 < ctx.uintArgs 0 then SetNcoE.invalidEnCb.code
      else if 4095#32 < (requestQuadrant ctx).shiftInt then SetNcoE.invalidShiftCb.code
      else 0
  | .configIo =>
      if ioArgsCode ctx ≠ .ok then (ioArgsCode ctx).code
      else if rstBit stack then 1
      else 0
  | .configDemod =>
      if 1#32 < ctx.uintArgs 0 then ConfigDemodE.invalidRef.code
      else if 6#32 < ctx.uintArgs 1 then ConfigDemodE.invalidIn.code
      else 0
  | .sweepRamp =>
      if rampArgsCode ctx ≠ .ok then (rampArgsCode ctx).code
      else if ramp then 0
      else SweepRampE.fopenErr.code

end Code

/-! ## Echoes -/

/-- The command of a word that holds a view. -/
theorem cmd_of_decode {w : BitVec 32} {v : CmdView} (h : decode w = some v) :
    PdhCmdT.cmd.get w = v.cmd.code := by
  have hcode : ∀ code : BitVec 4, ∀ c : PdhCmdE, Cmd.ofCode code = Cmd.ofCode c.code →
      code = c.code := by
    intro code c
    revert code
    cases c <;> decide
  refine hcode _ _ ?_
  change cmdW w = _
  unfold decode at h
  cases hcmd : cmdW w
  all_goals rw [hcmd] at h
  all_goals cases h
  all_goals rfl

theorem cmd_strobe (v : BitVec 1) (w : BitVec 32) :
    PdhCmdT.cmd.get (PdhCmdT.strobe.set v w) = PdhCmdT.cmd.get w :=
  BitField.get_set_of_disjoint (f := PdhCmdT.strobe) (g := PdhCmdT.cmd)
    (.inr (Nat.le_refl 30)) v w

/-- On a faithful board the callback of a command carries the command and shows its values. -/
theorem echoed_of_execute {cmd cb : BitVec 32} {v : CmdView} {tr : Trace} {b b' : Board}
    (hrst : rstBit cmd = false) (h : decode (PdhCmdT.strobe.set 1#1 cmd) = some v)
    (hrun : Performs (pdhExecuteCmd cmd) tr cb) (hfollows : Follows board b tr b') :
    PdhCallbackT.cmd.get cb = PdhCmdT.cmd.get cmd ∧ v.Echoed cb := by
  rcases performs_execute hrst hrun hfollows with ⟨-, hconfig, hlatched, d, o, hdac1, hdac2, rfl⟩
  rw [hlatched]
  refine ⟨?_, ?_⟩
  · rw [cmd_nextCallbackW h, ← cmd_of_decode h, cmd_strobe]
  · have hechoed := echoed_of_decode h b.config.regs (dacRegs b.config) o
    have hregs : b'.config.regs = Regs.next (PdhCmdT.strobe.set 1#1 cmd) b.config.regs := by
      rw [hconfig, exec_regs, next_eq_execRegs]
    rcases exec_dac (PdhCmdT.strobe.set 1#1 cmd) b.config with ⟨hnext1, hnext2⟩
    rw [← hconfig] at hnext1 hnext2
    have hsame : nextCallbackW (PdhCmdT.strobe.set 1#1 cmd) b'.config.regs d o =
        nextCallbackW (PdhCmdT.strobe.set 1#1 cmd)
          (Regs.next (PdhCmdT.strobe.set 1#1 cmd) b.config.regs)
          (DacRegs.next (PdhCmdT.strobe.set 1#1 cmd) (dacRegs b.config)) o := by
      rw [hregs]
      unfold nextCallbackW
      rw [hdac1, hdac2, hnext1, hnext2]
    rw [hsame]
    exact hechoed

/-- A value comes back from a field if it fits. -/
theorem setWidth_back_iff {x : BitVec 32} {k : ℕ} :
    (x.setWidth k).setWidth 32 = x ↔ x.toNat < 2 ^ k := by
  rw [← BitVec.toNat_inj, BitVec.toNat_setWidth, BitVec.toNat_setWidth]
  have hlt : x.toNat % 2 ^ k < 2 ^ 32 := Nat.lt_of_le_of_lt (Nat.mod_le _ _) x.isLt
  rw [Nat.mod_eq_of_lt hlt]
  constructor
  · intro h
    rw [← h]
    exact Nat.mod_lt _ (by positivity)
  · exact Nat.mod_eq_of_lt

/-- A value that passed the check of its range comes back. -/
theorem setWidth_back {x m : BitVec 32} {k : ℕ} (h : ¬m < x) (hm : m.toNat < 2 ^ k) :
    (x.setWidth k).setWidth 32 = x :=
  setWidth_back_iff.mpr (Nat.lt_of_le_of_lt (BitVec.not_lt.mp h) hm)

/-- A larger one does not, if the range is that of the field. -/
theorem setWidth_lost {x m : BitVec 32} {k : ℕ} (h : m < x) (hm : m.toNat + 1 = 2 ^ k) :
    (x.setWidth k).setWidth 32 ≠ x := by
  intro hback
  have hlt := setWidth_back_iff.mp hback
  rw [BitVec.lt_def] at h
  omega

theorem validateCb_self {α : Type} [DecidableEq α] (x : α) (successCode failCode : ℕ) :
    validateCb x x successCode failCode = successCode :=
  if_neg (not_not.mpr rfl)

theorem validateCb_of_ne {α : Type} [DecidableEq α] {cb expected : α} (h : cb ≠ expected)
    (successCode failCode : ℕ) : validateCb cb expected successCode failCode = failCode :=
  if_pos h

/-- A clamped value is in its range. -/
theorem toInt_clamp {lo hi : BitVec 32} (h : lo.toInt ≤ hi.toInt) (x : BitVec 32) :
    lo.toInt ≤ (clamp lo hi x).toInt ∧ (clamp lo hi x).toInt ≤ hi.toInt := by
  rw [clamp]
  simp only [BitVec.slt_iff_toInt_lt]
  split_ifs with hhigh hlow
  · exact ⟨h, le_rfl⟩
  · exact ⟨le_rfl, h⟩
  · exact ⟨not_lt.mp hlow, not_lt.mp hhigh⟩

/-! ## Routines -/

/-- On a faithful board the routine returns a reply with code {lit}`k`. -/
def AnswersWith {F : Type} (p : Routine (Reply F)) (k : ℕ) : Prop :=
  Triple board (fun _ => True) p fun r _ => r.returnCode = k

section Routines

variable {F : Type} {k : ℕ}

theorem answersWith_pure {r : Reply F} (h : r.returnCode = k) : AnswersWith (pure r) k :=
  Triple.pure fun _ _ => h

/-- A command that is executed, and what is made of its echo. -/
theorem answersWith_execute {cmd : BitVec 32} {v : CmdView} {f : BitVec 32 → Reply F}
    (hrst : rstBit cmd = false) (hdecode : decode (PdhCmdT.strobe.set 1#1 cmd) = some v)
    (h : ∀ cb, PdhCallbackT.cmd.get cb = PdhCmdT.cmd.get cmd → v.Echoed cb →
      (f cb).returnCode = k) :
    AnswersWith (pdhExecuteCmd cmd >>= fun cb => pure (f cb)) k := by
  refine Triple.bind (Q := fun cb _ => (f cb).returnCode = k) ?_ fun cb => Triple.pure fun _ h => h
  intro b tr cb b' _ hrun hfollows
  rcases echoed_of_execute hrst hdecode hrun hfollows with ⟨hcmd, hechoed⟩
  exact h cb hcmd hechoed

end Routines

/-! ## Single commands -/

section Single

variable {F : Type}

theorem cmdSetLed_answers (ctx : CmdCtx F) :
    AnswersWith (cmdSetLed ctx)
      (if 255#32 < ctx.uintArgs 0 then SetLedE.invalidLed.code else 0) := by
  dsimp only [cmdSetLed]
  split_ifs with hargs
  · exact answersWith_pure rfl
  · refine answersWith_execute ?_ (decode_ledWord _) fun cb hcmd hechoed => ?_
    · rw [rstBit_set (Nat.le_of_ble_eq_true rfl), rstBit_cmdWord]
    · have hled : PdhCallbackT.funcCallback.get cb = (ctx.uintArgs 0).setWidth 8 := hechoed
      have hfits : ((ctx.uintArgs 0).setWidth 8).setWidth 32 = ctx.uintArgs 0 :=
        setWidth_back hargs (by decide)
      simp only [Reply.validateCmd, Reply.validate, Reply.pushCtxCb, hcmd, hled, hfits,
        validateCb_self]
      rfl

theorem cmdCheckSigned_answers (ctx : CmdCtx F) :
    AnswersWith (cmdCheckSigned ctx)
      (if 31#32 < ctx.uintArgs 0 then CheckSignedE.invalidRegSelCb.code else 0) := by
  refine answersWith_execute (rstBit_checkSignedWord _) (decode_checkSignedWord _)
    fun cb hcmd hechoed => ?_
  have hsel : PdhCallbackT.regSel.get cb = (ctx.uintArgs 0).setWidth 5 := hechoed
  simp only [Reply.validateCmd, Reply.validate, Reply.pushCtxCb, hcmd, hsel, validateCb_self]
  split_ifs with hargs
  · exact validateCb_of_ne (setWidth_lost hargs (by decide)) _ _
  · have hfits : ((ctx.uintArgs 0).setWidth 5).setWidth 32 = ctx.uintArgs 0 :=
      setWidth_back hargs (by decide)
    rw [hfits, validateCb_self]
    rfl

theorem cmdConfigDemod_answers (ctx : CmdCtx F) :
    AnswersWith (cmdConfigDemod ctx)
      (if 1#32 < ctx.uintArgs 0 then ConfigDemodE.invalidRef.code
        else if 6#32 < ctx.uintArgs 1 then ConfigDemodE.invalidIn.code else 0) := by
  dsimp only [cmdConfigDemod]
  split_ifs with href hin
  · exact answersWith_pure rfl
  · exact answersWith_pure rfl
  · refine answersWith_execute (rstBit_configDemodWord _ _ _) (decode_configDemodWord _ _ _)
      fun cb hcmd hechoed => ?_
    rcases hechoed with ⟨hrefEcho, hinEcho, halpha⟩
    have hrefFits : ((ctx.uintArgs 0).setWidth 1).setWidth 32 = ctx.uintArgs 0 :=
      setWidth_back href (by decide)
    have hinFits : ((ctx.uintArgs 1).setWidth 3).setWidth 32 = ctx.uintArgs 1 :=
      setWidth_back hin (by decide)
    have halphaFits : ((ctx.uintArgs 2 &&& 0xF#32).setWidth 4).setWidth 32 =
        ctx.uintArgs 2 &&& 0xF#32 := by
      refine setWidth_back_iff.mpr ?_
      rw [toNat_and_mask (k := 4) rfl]
      exact Nat.mod_lt _ (by omega)
    simp only [Reply.validateCmd, Reply.validate, Reply.pushCtxCb, hcmd, hrefEcho, hinEcho, halpha,
      hrefFits, hinFits, halphaFits, validateCb_self]
    rfl

/-- The routing is echoed, unless the word on the stack resets the core. -/
theorem cmdConfigIo_answers (stack : BitVec 32) (ctx : CmdCtx F) :
    AnswersWith (cmdConfigIo stack ctx)
      (if ioArgsCode ctx ≠ .ok then (ioArgsCode ctx).code else if rstBit stack then 1 else 0) := by
  dsimp only [cmdConfigIo]
  split_ifs with hargs hstack
  · exact answersWith_pure rfl
  · refine Triple.bind (Q := fun cb _ => PdhCallbackT.cmd.get cb = 0#4) ?_ fun cb =>
      Triple.pure fun _ hcb => ?_
    · intro b tr cb b' _ hrun hfollows
      rcases follows_execute hrun hfollows with ⟨-, hboard, d, o, -, -, rfl⟩
      have hreset : b'.latched = 0#32 := by
        rw [hboard, Board.send_of_rst (by rw [rstBit_strobe, rstBit_configIoWord]; exact hstack)]
        rfl
      rw [hreset, show nextCallbackW 0#32 _ d o = 0#32 from rfl]
      rfl
    · refine validateCb_of_ne ?_ _ _
      rw [hcb, cmd_configIoWord]
      decide
  · have hok : ioArgsCode ctx = .ok := not_not.mp hargs
    have hclear : rstBit stack = false := Bool.eq_false_iff.mpr hstack
    refine answersWith_execute (by rw [rstBit_configIoWord]; exact hclear)
      (decode_configIo _ _ _ _) fun cb hcmd hechoed => ?_
    rcases hechoed with ⟨hdac1, hdac2, hpid⟩
    have hranges : ¬6#32 < ctx.uintArgs 2 ∧ ¬3#32 < ctx.uintArgs 1 ∧ ¬3#32 < ctx.uintArgs 0 := by
      unfold ioArgsCode at hok
      split_ifs at hok with hpidRange hdac2Range hdac1Range
      exact ⟨hpidRange, hdac2Range, hdac1Range⟩
    have hpidFits : ((ctx.uintArgs 2).setWidth 3).setWidth 32 = ctx.uintArgs 2 :=
      setWidth_back hranges.1 (by decide)
    have hdac2Fits : ((ctx.uintArgs 1).setWidth 3).setWidth 32 = ctx.uintArgs 1 :=
      setWidth_back hranges.2.1 (by decide)
    have hdac1Fits : ((ctx.uintArgs 0).setWidth 3).setWidth 32 = ctx.uintArgs 0 :=
      setWidth_back hranges.2.2 (by decide)
    simp only [Reply.validateCmd, Reply.validate, Reply.pushCtxCb, hcmd, hdac1, hdac2, hpid,
      hpidFits, hdac2Fits, hdac1Fits, validateCb_self]
    rfl

variable [MixedPrecision F]

theorem cmdGetAdc_answers : AnswersWith (cmdGetAdc : Routine (Reply F)) 0 := by
  refine answersWith_execute (rstBit_cmdWord _) (decode_cmdWord 1#1).2.1 fun cb hcmd _ => ?_
  simp only [Reply.validateCmd, Reply.validate, Reply.pushCtxCb, hcmd, validateCb_self]

theorem dacCodeOf_lt (val : F) : (dacCodeOf val).toNat < 2 ^ 14 := by
  rcases (⟨_, rfl⟩ : ∃ x, dacCodeOf val = clamp 0#32 16383#32 x) with ⟨x, hx⟩
  have hrange := toInt_clamp (show (0#32).toInt ≤ (16383#32).toInt by decide) x
  rw [← hx, show (0#32).toInt = 0 from rfl, show (16383#32).toInt = 16383 from rfl,
    BitVec.toInt_eq_toNat_cond] at hrange
  split_ifs at hrange with hsign
  · omega
  · omega

theorem cmdSetDac_answers (ctx : CmdCtx F) : AnswersWith (cmdSetDac ctx) 0 := by
  refine answersWith_execute (rstBit_setDacWord _ _) (decode_setDacWord _ _)
    fun cb hcmd hechoed => ?_
  have hfits : ((dacCodeOf (ctx.floatArgs 0)).setWidth 14).setWidth 32 =
      dacCodeOf (ctx.floatArgs 0) :=
    setWidth_back_iff.mpr (dacCodeOf_lt _)
  simp only [CmdView.Echoed, ofBool_eq_one] at hechoed
  simp only [Reply.validateCmd, Reply.validate, Reply.pushCtxCb, hcmd, validateCb_self]
  split_ifs at hechoed ⊢ with hsel
  · rw [hechoed, hfits, validateCb_self]
    rfl
  · rw [hechoed, hfits, validateCb_self]
    rfl

end Single

/-! ## `cmd_set_pid` -/

theorem decode_setPidWord (sel : PidCoeffSelE) (payload : BitVec 16) :
    decode (PdhCmdT.strobe.set 1#1 (setPidWord sel payload)) =
      some (.setPidCmd payload sel.code) := by
  apply CmdView.Holds.decode
  constructor
  · simp (disch := decide) only [setPidWord, cmdWord, BitField.get_set_of_disjoint,
      BitField.get_set, CmdView.cmd]
  · simp (disch := decide) only [setPidWord, cmdWord, BitField.get_set_of_disjoint,
      BitField.get_set, CmdView.cmd, CmdView.read]

theorem pidOfCode_code (sel : PidCoeffSelE) : PidCoeffSelE.ofCode sel.code = some sel := by
  cases sel <;> rfl

/-- On a faithful board a write of the controller is echoed at the width of its register. -/
theorem payload_of_execute {sel : PidCoeffSelE} {payload : BitVec 16} {cb : BitVec 32} {tr : Trace}
    {b b' : Board} (hrun : Performs (pdhExecuteCmd (setPidWord sel payload)) tr cb)
    (hfollows : Follows board b tr b') : PdhCallbackT.payloadR.get cb = pidEcho payload sel :=
  (echoed_of_execute (rstBit_setPidWord sel payload) (decode_setPidWord sel payload) hrun
    hfollows).2.2 sel (pidOfCode_code sel)

/-- A value with a sign comes back from a field if it fits. -/
theorem signExtend_back {x : BitVec 32} (hlow : -8192 ≤ x.toInt) (hhigh : x.toInt ≤ 8191) :
    ((x.setWidth 16).setWidth 14).signExtend 16 = x.setWidth 16 := by
  rw [BitVec.setWidth_setWidth_of_le _ (by omega)]
  apply BitVec.eq_of_toInt_eq
  rw [BitVec.toInt_signExtend_of_le (by omega)]
  rw [BitVec.toInt_eq_toNat_cond] at hlow hhigh
  rw [BitVec.toInt_eq_toNat_cond, BitVec.toInt_eq_toNat_cond, BitVec.toNat_setWidth,
    BitVec.toNat_setWidth]
  have hlt := x.isLt
  split_ifs at hlow hhigh ⊢ <;> omega

/-- A value without a sign comes back from a field of at most 16 bits if it fits. -/
theorem zeroExtend_back_iff {x : BitVec 32} {w : ℕ} (hw : w ≤ 16) :
    (((x.setWidth 16).setWidth w).setWidth 16).setWidth 32 = x ↔ x.toNat < 2 ^ w := by
  have hpow : 2 ^ w ≤ 2 ^ 16 := Nat.pow_le_pow_right (by omega) hw
  have hlt : x.toNat % 2 ^ w < 2 ^ w := Nat.mod_lt _ (by positivity)
  rw [BitVec.setWidth_setWidth_of_le _ hw, ← BitVec.toNat_inj]
  simp only [BitVec.toNat_setWidth]
  rw [Nat.mod_eq_of_lt (show x.toNat % 2 ^ w < 2 ^ 16 by omega),
    Nat.mod_eq_of_lt (show x.toNat % 2 ^ w < 2 ^ 32 by omega)]
  constructor
  · intro h
    rw [← h]
    exact hlt
  · exact Nat.mod_eq_of_lt

section SetPid

variable {F : Type} [SinglePrecision F] {k : ℕ} {r : Reply F}

theorem setPidInt16_code {sel : PidCoeffSelE} {value : BitVec 16} (scale : ℚ) (name : String)
    (fail : SetPidE) (hecho : pidEcho value sel = value) :
    Triple board (fun _ => r.returnCode = k) (setPidInt16 sel value scale name fail r)
      fun r' _ => r'.returnCode = k := by
  refine Triple.bind (Q := fun cb _ => PdhCallbackT.payloadR.get cb = value ∧ r.returnCode = k)
    ?_ fun cb => Triple.pure fun _ h => ?_
  · intro b tr cb b' hr hrun hfollows
    exact ⟨(payload_of_execute hrun hfollows).trans hecho, hr⟩
  · simp only [Reply.pushCtxCb, Reply.validate, h.1, validateCb_self]
    exact h.2

omit [SinglePrecision F] in
theorem setPidUint_code {sel : PidCoeffSelE} {value : BitVec 32} (name : String)
    (fail : SetPidE) :
    Triple board (fun _ => r.returnCode = k) (setPidUint sel value name fail r)
      fun r' _ => r'.returnCode =
        if (pidEcho (value.setWidth 16) sel).setWidth 32 = value then k else fail.code := by
  refine Triple.bind
    (Q := fun cb _ => PdhCallbackT.payloadR.get cb = pidEcho (value.setWidth 16) sel ∧
      r.returnCode = k) ?_ fun cb => Triple.pure fun _ h => ?_
  · intro b tr cb b' hr hrun hfollows
    exact ⟨payload_of_execute hrun hfollows, hr⟩
  · simp only [Reply.pushCtxCb, Reply.validate, h.1]
    split_ifs with hback
    · rw [hback, validateCb_self]
      exact h.2
    · exact validateCb_of_ne hback _ _

omit [SinglePrecision F] in
/-- A value that fits is echoed. -/
theorem setPidUint_code_of_back {sel : PidCoeffSelE} {value : BitVec 32} (name : String)
    (fail : SetPidE) (hback : (pidEcho (value.setWidth 16) sel).setWidth 32 = value) :
    Triple board (fun _ => r.returnCode = k) (setPidUint sel value name fail r)
      fun r' _ => r'.returnCode = k := by
  intro b tr r' b' hr hrun hfollows
  rw [setPidUint_code name fail b tr r' b' hr hrun hfollows, if_pos hback]

/-- The clamped values fit, and so only the enable may not. -/
theorem cmdSetPid_answers (ctx : CmdCtx F) :
    AnswersWith (cmdSetPid ctx) (if 1#32 < ctx.uintArgs 3 then SetPidE.invalidEn.code else 0) := by
  have hclamp : ∀ {a m : BitVec 32}, ¬m < (if m < a then m else a) := by
    intro a m
    split_ifs with h
    · exact BitVec.lt_irrefl m
    · exact h
  have hdec : (PidRequest.ofCtx ctx).dec.toNat < 2 ^ 14 := setWidth_back_iff.mp
    (setWidth_back (m := 0x3FFF#32) hclamp (by decide))
  have halpha : (PidRequest.ofCtx ctx).alpha.toNat < 2 ^ 4 := setWidth_back_iff.mp
    (setWidth_back (m := 15#32) hclamp (by decide))
  have hsat : (PidRequest.ofCtx ctx).sat.toNat < 2 ^ 5 := setWidth_back_iff.mp
    (setWidth_back (m := 31#32) hclamp (by decide))
  have hsp := toInt_clamp (show (-8192 : BitVec 32).toInt ≤ (8191 : BitVec 32).toInt by decide)
    (lrintf (mul (ctx.floatArgs 3) (lit 8192)))
  have hbias := toInt_clamp (show (-8191 : BitVec 32).toInt ≤ (8191 : BitVec 32).toInt by decide)
    (lrintf (mul (ctx.floatArgs 5) (lit 8191)))
  refine Triple.bind (Q := fun r _ => r.returnCode = 0)
    (fun b tr r b' _ => setPidInt16_code _ _ _ rfl b tr r b' rfl) fun r => ?_
  refine Triple.bind (setPidInt16_code _ _ _ rfl) fun r => ?_
  refine Triple.bind (setPidInt16_code _ _ _ rfl) fun r => ?_
  refine Triple.bind (setPidUint_code_of_back _ _ ((zeroExtend_back_iff (by omega)).mpr hdec))
    fun r => ?_
  refine Triple.bind (setPidInt16_code _ _ _ (signExtend_back hsp.1 hsp.2)) fun r => ?_
  refine Triple.bind (setPidUint_code_of_back _ _ ((zeroExtend_back_iff (by omega)).mpr halpha))
    fun r => ?_
  refine Triple.bind (setPidUint_code_of_back _ _ ((zeroExtend_back_iff (by omega)).mpr hsat))
    fun r => ?_
  refine Triple.bind (setPidUint_code _ _) fun r => ?_
  refine Triple.bind (setPidInt16_code _ _ _ rfl) fun r => ?_
  refine Triple.bind (setPidInt16_code _ _ _ (signExtend_back ?_ hbias.2)) fun r => ?_
  · exact le_trans (by decide) hbias.1
  intro b tr r' b' hr hrun hfollows
  rw [setPidInt16_code _ _ _ rfl b tr r' b' hr hrun hfollows]
  have hen : (pidEcho ((PidRequest.ofCtx ctx).en.setWidth 16) .en).setWidth 32 =
      (PidRequest.ofCtx ctx).en ↔ ¬1#32 < ctx.uintArgs 3 := by
    refine (zeroExtend_back_iff (by omega)).trans ?_
    rw [BitVec.not_lt, BitVec.le_def]
    exact Nat.lt_succ_iff
  by_cases hone : 1#32 < ctx.uintArgs 3
  · rw [if_neg (mt hen.mp (not_not.mpr hone)), if_pos hone]
  · rw [if_pos (hen.mpr hone), if_neg hone]

end SetPid

/-! ## `cmd_set_fir` -/

section SetFir

variable {F : Type} {k : ℕ} {r : Reply F}

theorem setFirReg_code (sel : FirUpdateSelE) (value mask : BitVec 32) (fail : SetFirE) {P : Prop}
    (hr : P → r.returnCode = k) :
    Triple board (fun _ => P) (setFirReg sel value mask fail r)
      fun x _ => x.2.returnCode = if echoOf sel value mask = value then k else fail.code := by
  intro b tr x b' hP hrun hfollows
  rw [(performs_setFirReg hrun hfollows).1]
  dsimp only [Reply.validate]
  split_ifs with hecho
  · rw [hecho, validateCb_self]
    exact hr hP
  · exact validateCb_of_ne hecho _ _

theorem setFirReg_code_of_echo {sel : FirUpdateSelE} {value mask : BitVec 32} (fail : SetFirE)
    {P : Prop} (hr : P → r.returnCode = k) (hecho : echoOf sel value mask = value) :
    Triple board (fun _ => P) (setFirReg sel value mask fail r)
      fun x _ => x.2.returnCode = k := by
  intro b tr x b' hP hrun hfollows
  rw [setFirReg_code sel value mask fail hr b tr x b' hP hrun hfollows, if_pos hecho]

variable [SinglePrecision F]

/-- The first address with more than five bits fails, and the loop goes on. -/
theorem loadCoeffs_code (ctx : CmdCtx F) {i n : ℕ} (hn : i + n ≤ 64) {P : Prop}
    (hr : P → r.returnCode = k) :
    Triple board (fun _ => P) (loadCoeffs ctx r i n)
      fun r' _ => r'.returnCode =
        if n = 0 ∨ i + n ≤ 32 then k else SetFirE.addrCbFail.code := by
  induction n generalizing r i k P with
  | zero => exact Triple.pure fun _ h => hr h
  | succ n ih =>
      refine Triple.bind (setFirReg_code .addr _ _ _ hr) fun x => ?_
      refine Triple.bind (setFirReg_code_of_echo _ id (echoOf_coeff _)) fun y => ?_
      intro b tr r' b' hy hrun hfollows
      rw [ih (by omega) id b tr r' b' hy hrun hfollows]
      have haddr := echoOf_addr (show i < 64 by omega)
      by_cases hi : i < 32
      · rw [if_pos (haddr.mpr hi)]
        exact if_congr (by omega) rfl rfl
      · rw [if_neg (mt haddr.mp hi), ite_self, if_neg (by omega)]

/-- An accepted request fails if and only if it has a coefficient without an address. -/
theorem cmdSetFir_answers (ctx : CmdCtx F) :
    AnswersWith (cmdSetFir ctx)
      (if firArgsCode ctx ≠ .ok then (firArgsCode ctx).code
        else if 32 < ctx.numFloats then SetFirE.addrCbFail.code else 0) := by
  unfold cmdSetFir
  by_cases hargs : firArgsCode ctx ≠ .ok
  · rw [if_pos hargs, if_pos hargs]
    exact answersWith_pure rfl
  · rw [if_neg hargs, if_neg hargs]
    have hsel := echoOf_inputSel (le_of_firArgsCode (not_not.mp hargs))
    refine Triple.bind (setFirReg_code_of_echo _ (fun _ => rfl) hsel) fun x => ?_
    have hopen : echoOf .memWriteEn 1#32 0x1#32 = 1#32 := by decide
    have hclose : echoOf .memWriteEn 0#32 0x1#32 = 0#32 := by decide
    have hchain : echoOf .chainWriteEn 1#32 0x1#32 = 1#32 := by decide
    refine Triple.bind (setFirReg_code_of_echo _ id hopen) fun x => ?_
    have hlen : 0 + ctx.numFloats ≤ 64 := by
      rw [Nat.zero_add]
      exact ctx.numFloats_le
    refine Triple.bind (loadCoeffs_code ctx hlen id) fun r => ?_
    refine Triple.bind (setFirReg_code_of_echo _ id hclose) fun x => ?_
    refine Triple.bind (setFirReg_code_of_echo _ id hchain) fun x => Triple.pure fun b hcode => ?_
    refine Eq.trans hcode ?_
    by_cases hlong : 32 < ctx.numFloats
    · rw [if_pos hlong, if_neg (by omega)]
    · rw [if_neg hlong, if_pos (by omega)]
      rfl

end SetFir

/-! ## `cmd_set_nco` -/

section SetNco

variable {F : Type} [MixedPrecision F]

/-- The callback of a write of the oscillator shows all of its registers. -/
theorem performs_ncoEcho {sel : NcoCoeffSelE} {payload : BitVec 16} {tr : Trace} {cb : BitVec 32}
    {b b' : Board} (hrun : Performs (pdhExecuteCmd (setNcoWord sel payload)) tr cb)
    (hfollows : Follows board b tr b') :
    PdhCallbackT.ncoEnR.get cb = BitVec.ofBool b'.config.regs.ncoEnR ∧
      PdhCallbackT.ncoInvR.get cb = BitVec.ofBool b'.config.regs.ncoInvR ∧
      PdhCallbackT.ncoSubR.get cb = BitVec.ofBool b'.config.regs.ncoSubR ∧
      PdhCallbackT.ncoShiftR.get cb = b'.config.regs.ncoShiftR ∧
      PdhCallbackT.ncoStrideR.get cb = b'.config.regs.ncoStrideR := by
  rcases performs_execute (rstBit_setNcoWord sel payload) hrun hfollows with
    ⟨-, -, hlatched, d, o, -, -, rfl⟩
  have hread := read_nextCallbackW (hlatched ▸ decode_setNcoWord sel payload) b'.config.regs d o
  rw [CmdView.answer, CmdView.cmd, CallbackView.read, CallbackView.setNcoCb.injEq] at hread
  exact hread

theorem quadrant_bits (rad : F) :
    (quadrant rad).sub.toNat < 2 ^ 1 ∧ (quadrant rad).inv.toNat < 2 ^ 1 := by
  constructor
  · simp only [quadrant]
    split_ifs <;> decide
  · simp only [quadrant]
    rw [toNat_and_mask (k := 1) rfl]
    exact Nat.mod_lt _ (by omega)

/-- An accepted request fails if and only if its enable or its phase shift does not fit. -/
theorem cmdSetNco_answers (ctx : CmdCtx F) :
    AnswersWith (cmdSetNco ctx)
      (if ncoArgsCode ctx ≠ .ok then (ncoArgsCode ctx).code
        else if 1#32 < ctx.uintArgs 0 then SetNcoE.invalidEnCb.code
        else if 4095#32 < (requestQuadrant ctx).shiftInt then SetNcoE.invalidShiftCb.code
        else 0) := by
  intro b tr reply b' _ hrun hfollows
  have hsettings := @handler_settings F _ .setNco 0#32 ctx tr reply b b' hrun hfollows
  unfold cmdSetNco at hrun
  by_cases hargs : ncoArgsCode ctx ≠ .ok
  · rw [if_pos hargs] at hrun ⊢
    rw [(performs_pure.mp hrun).2]
  · rw [if_neg hargs] at hrun ⊢
    rw [Settings.apply, if_pos (not_not.mp hargs)] at hsettings
    rcases performs_bind.mp hrun with ⟨tr₁, _, tail₁, -, hrest₁, rfl⟩
    rcases performs_bind.mp hrest₁ with ⟨tr₂, _, tail₂, -, hrest₂, rfl⟩
    rcases performs_bind.mp hrest₂ with ⟨tr₃, _, tail₃, -, hrest₃, rfl⟩
    rcases performs_bind.mp hrest₃ with ⟨tr₄, _, tail₄, -, hrest₄, rfl⟩
    rcases performs_bind.mp hrest₄ with ⟨tr₅, _, tail₅, -, hrest₅, rfl⟩
    rcases performs_bind.mp hrest₅ with ⟨tr₆, cb, tail₆, henable, hreply, rfl⟩
    rcases performs_pure.mp hreply with ⟨rfl, rfl⟩
    rcases follows_append.mp hfollows with ⟨b₁, -, hg₁⟩
    rcases follows_append.mp hg₁ with ⟨b₂, -, hg₂⟩
    rcases follows_append.mp hg₂ with ⟨b₃, -, hg₃⟩
    rcases follows_append.mp hg₃ with ⟨b₄, -, hg₄⟩
    rcases follows_append.mp hg₄ with ⟨b₅, -, hg₅⟩
    rcases follows_append.mp hg₅ with ⟨_, hf₆, ⟨⟩⟩
    rcases performs_ncoEcho henable hf₆ with ⟨hen, hinv, hsub, hshift, hstride⟩
    have htuple : ncoTuple b'.config.regs = requestTuple ctx := congrArg Settings.nco hsettings
    have henable' : b'.config.regs.ncoEnR = (ctx.uintArgs 0).getLsbD 0 :=
      congrArg Settings.ncoEn hsettings
    have hstrideReg : PdhCallbackT.ncoStrideR.get cb = (strideOf (ctx.floatArgs 0)).setWidth 12 :=
      hstride.trans (congrArg NcoTuple.stride htuple)
    have hshiftReg : PdhCallbackT.ncoShiftR.get cb = (requestQuadrant ctx).shiftInt.setWidth 12 :=
      hshift.trans (congrArg NcoTuple.shift htuple)
    have hsubReg : PdhCallbackT.ncoSubR.get cb = (requestQuadrant ctx).sub.setWidth 1 := by
      rw [hsub, ← ofBool_bit_zero]
      exact congrArg BitVec.ofBool (congrArg NcoTuple.sub htuple)
    have hinvReg : PdhCallbackT.ncoInvR.get cb = (requestQuadrant ctx).inv.setWidth 1 := by
      rw [hinv, ← ofBool_bit_zero]
      exact congrArg BitVec.ofBool (congrArg NcoTuple.inv htuple)
    have henReg : PdhCallbackT.ncoEnR.get cb = (ctx.uintArgs 0).setWidth 1 := by
      rw [hen, henable', ofBool_bit_zero]
    have hstrideFits : ¬1024#32 < strideOf (ctx.floatArgs 0) := by
      intro hlarge
      refine hargs ?_
      simp only [ncoArgsCode]
      split_ifs with h₁ h₂
      · decide
      · decide
      · exact absurd (.inl hlarge) h₂
    have hbits := quadrant_bits (shiftRad (mul (ctx.floatArgs 1) (lit (-1))))
    change validateCb ((PdhCallbackT.ncoEnR.get cb).setWidth 32) (ctx.uintArgs 0)
      (validateCb ((PdhCallbackT.ncoInvR.get cb).setWidth 32) (requestQuadrant ctx).inv
        (validateCb ((PdhCallbackT.ncoSubR.get cb).setWidth 32) (requestQuadrant ctx).sub
          (validateCb ((PdhCallbackT.ncoShiftR.get cb).setWidth 32) (requestQuadrant ctx).shiftInt
            (validateCb ((PdhCallbackT.ncoStrideR.get cb).setWidth 32)
              (strideOf (ctx.floatArgs 0)) 0 SetNcoE.invalidStrideCb.code)
            SetNcoE.invalidShiftCb.code)
          SetNcoE.invalidSubCb.code)
        SetNcoE.invalidInvCb.code)
      SetNcoE.invalidEnCb.code = _
    rw [henReg, hinvReg, hsubReg, hshiftReg, hstrideReg, setWidth_back hstrideFits (by decide),
      setWidth_back_iff.mpr (show (requestQuadrant ctx).inv.toNat < 2 ^ 1 from hbits.2),
      setWidth_back_iff.mpr (show (requestQuadrant ctx).sub.toNat < 2 ^ 1 from hbits.1),
      validateCb_self, validateCb_self, validateCb_self]
    split_ifs with hen' hshift'
    · exact validateCb_of_ne (setWidth_lost hen' (by decide)) _ _
    · rw [setWidth_back hen' (by decide), validateCb_self]
      exact validateCb_of_ne (setWidth_lost hshift' (by decide)) _ _
    · rw [setWidth_back hen' (by decide), validateCb_self, setWidth_back hshift' (by decide),
        validateCb_self]

end SetNco

/-! ## `cmd_set_rot` -/

section SetRot

variable {F : Type} [MixedPrecision F]

/-- The coefficients come back without their two low bits. -/
theorem shown_coefficient (x : BitVec 16) :
    (x.extractLsb' 2 14).setWidth 16 <<< 2 = approx x := by
  apply BitVec.eq_of_getLsbD_eq
  intro i hi
  by_cases hlow : i < 2
  · simp [approx, hlow]
  · simp [approx, hlow, show i - 2 < 14 by omega, hi]

/-- The calls that send both coefficients. -/
def rotSends (c s : BitVec 16) : Trace :=
  [⟨.pdhSendCmd (setRotWord 0#1 0#1 c), ()⟩, ⟨.pdhSendCmd (setRotWord 1#1 0#1 c), ()⟩,
    ⟨.pdhSendCmd (setRotWord 0#1 1#1 s), ()⟩, ⟨.pdhSendCmd (setRotWord 1#1 1#1 s), ()⟩]

theorem shown_rotSends (c s : BitVec 16) :
    shown Call.sent (rotSends c s) = strobed (rotWord 0#1 c) ++ strobed (rotWord 1#1 s) := by
  simp only [shown, rotSends, List.flatMap_cons, List.flatMap_nil, Call.sent, strobed, setRotWord,
    rotWord, List.cons_append, List.nil_append]

/-- The callback after the words of both coefficients. -/
theorem rot_callback {c s : BitVec 16} {b b' : Board} (hfollows : Follows board b (rotSends c s) b')
    {cb : BitVec 32} (hcb : b'.Answers cb) :
    (PdhCallbackT.cosThetaR.get cb).setWidth 16 <<< 2 = approx c ∧
      (PdhCallbackT.sinThetaR.get cb).setWidth 16 <<< 2 = approx s := by
  have hboard := follows_board_sent hfollows
  rw [shown_rotSends, List.foldl_append, send_strobed (rstBit_rotWord _ _),
    send_strobed (rstBit_rotWord _ _), exec_of_decode (decode_rotWord _ _),
    exec_of_decode (decode_rotWord _ _)] at hboard
  rcases hcb with ⟨d, o, -, -, rfl⟩
  have hlatched : b'.latched = PdhCmdT.strobe.set 1#1 (rotWord 1#1 s) := by rw [hboard]
  have hcos : b'.config.regs.cosThetaR = c := by
    rw [hboard]
    rfl
  have hsin : b'.config.regs.sinThetaR = s := by
    rw [hboard]
    rfl
  have hread := read_nextCallbackW (hlatched ▸ decode_rotWord 1#1 s) b'.config.regs d o
  rcases CallbackView.setRotCoeffCb.inj hread with ⟨hcosR, hsinR⟩
  rw [hcosR, hsinR, hcos, hsin]
  exact ⟨shown_coefficient c, shown_coefficient s⟩

theorem cmdSetRot_answers (ctx : CmdCtx F) : AnswersWith (cmdSetRot ctx) 0 := by
  intro b tr reply b' _ hrun hfollows
  rcases performs_call.mp hrun with ⟨_, tail₁, rfl, hrest₁⟩
  rcases performs_call.mp hrest₁ with ⟨_, tail₂, rfl, hrest₂⟩
  rcases performs_call.mp hrest₂ with ⟨_, tail₃, rfl, hrest₃⟩
  rcases performs_call.mp hrest₃ with ⟨_, tail₄, rfl, hrest₄⟩
  rcases performs_call.mp hrest₄ with ⟨cb, tail₅, rfl, hrest₅⟩
  rcases performs_bind.mp hrest₅ with ⟨tr₆, cb', tail₆, -, hreply, rfl⟩
  have hcode : reply.returnCode = validateCb ((PdhCallbackT.sinThetaR.get cb).setWidth 16 <<< 2)
      (approx (floatToQ15 (sinf (clampAngle (ctx.floatArgs 0)))))
      (validateCb ((PdhCallbackT.cosThetaR.get cb).setWidth 16 <<< 2)
        (approx (floatToQ15 (cosf (clampAngle (ctx.floatArgs 0))))) SetRotE.ok.code
        SetRotE.invalidCos.code)
      SetRotE.invalidSin.code := by
    rw [(performs_pure.mp hreply).2]
    rfl
  generalize floatToQ15 (cosf (clampAngle (ctx.floatArgs 0))) = c at hfollows hcode
  generalize floatToQ15 (sinf (clampAngle (ctx.floatArgs 0))) = s at hfollows hcode
  have hsplit : Follows board b (rotSends c s ++ ⟨.pdhGetCallback, cb⟩ :: (tr₆ ++ tail₆)) b' :=
    hfollows
  rcases follows_append.mp hsplit with ⟨b₁, hsends, hrest⟩
  rcases hrest with _ | ⟨⟨-, hcb⟩, -⟩
  rcases rot_callback hsends hcb with ⟨hcos, hsin⟩
  rw [hcode, hcos, hsin, validateCb_self, validateCb_self]
  rfl

end SetRot

/-! ## `cmd_get_frame` -/

section GetFrame

variable {F : Type}

theorem fileOpened_append (path : String) (tr tr' : Trace) :
    fileOpened path (tr ++ tr') = (fileOpened path tr || fileOpened path tr') :=
  List.any_append

theorem fileOpened_of_quiet (path : String) {tr : Trace} (h : Quiet tr) :
    fileOpened path tr = false := by
  rw [Bool.eq_false_iff, Ne, fileOpened_iff]
  exact fun hmem => h _ hmem

/-- The log decides on the code if it cannot be opened. -/
theorem logFrame_code {frameCode : BitVec 32} {r r' : Reply F} {tr : Trace}
    (hrun : Performs (logFrame frameCode r) tr r') :
    r'.returnCode = if fileOpened "dma_log.csv" tr then r.returnCode else 1 := by
  rcases performs_call.mp hrun with ⟨opened, tail, rfl, hrest⟩
  cases opened with
  | true =>
      have hopened : fileOpened "dma_log.csv" (⟨.fopen "dma_log.csv", true⟩ :: tail) = true :=
        fileOpened_iff.mpr List.mem_cons_self
      rw [hopened, if_pos rfl]
      dsimp only at hrest
      by_cases hcode : r.returnCode = 0
      · rw [if_pos rfl, if_pos hcode] at hrest
        rcases performs_bind.mp hrest with ⟨_, _, _, -, hclose, -⟩
        rcases performs_bind.mp hclose with ⟨_, _, _, -, hreply, -⟩
        rw [(performs_pure.mp hreply).2]
      · rw [if_pos rfl, if_neg hcode] at hrest
        rw [(performs_pure.mp hrest).2]
  | false =>
      rcases performs_pure.mp hrest with ⟨rfl, rfl⟩
      rfl

theorem decimationOf_lt_iff {ctx : CmdCtx F} :
    0x3FFFFF#32 < decimationOf ctx ↔ 0x3FFFFF#32 < ctx.uintArgs 0 := by
  unfold decimationOf
  split_ifs with hzero
  · simp only [BitVec.lt_def, BitVec.toNat_ofNat] at hzero ⊢
    omega
  · exact Iff.rfl

/-- The reply before the log, for an echo of both arguments. -/
theorem getFrameReply_code {decimation frameCode cb : BitVec 32}
    (hcmd : PdhCallbackT.cmd.get cb = PdhCmdE.getFrame.code)
    (hdec : PdhCallbackT.decimation.get cb = decimation.setWidth 22)
    (hframe : PdhCallbackT.frameCode.get cb = frameCode.setWidth 4) :
    (getFrameReply (F := F) decimation frameCode cb).returnCode =
      if 15#32 < frameCode then GetFrameE.invalidCode.code
      else if 0x3FFFFF#32 < decimation then GetFrameE.invalidDec.code
      else 0 := by
  simp only [getFrameReply, Reply.validateCmd, Reply.validate, Reply.pushCtxCb, hcmd, hdec, hframe,
    cmd_getFrameWord, validateCb_self]
  split_ifs with hcode hrange
  · exact validateCb_of_ne (setWidth_lost hcode (by decide)) _ _
  · rw [setWidth_back hcode (by decide), validateCb_self]
    exact validateCb_of_ne (setWidth_lost hrange (by decide)) _ _
  · rw [setWidth_back hcode (by decide), setWidth_back hrange (by decide), validateCb_self,
      validateCb_self]
    rfl

/-- The callback after the words of a frame request. -/
theorem frame_callback {ctx : CmdCtx F} {b b' : Board}
    (hfollows : Follows board b (orderCalls ctx) b')
    {cb : BitVec 32} (hcb : b'.Answers cb) :
    PdhCallbackT.cmd.get cb = PdhCmdE.getFrame.code ∧
      PdhCallbackT.decimation.get cb = (decimationOf ctx).setWidth 22 ∧
      PdhCallbackT.frameCode.get cb = (ctx.uintArgs 1).setWidth 4 := by
  have hboard : b' = (strobed (getFrameWord (decimationOf ctx) (ctx.uintArgs 1))).foldl
      (fun b w => b.send w) ((strobed (cmdWord .idle)).foldl (fun b w => b.send w) b) :=
    follows_board_sent hfollows
  rw [send_strobed (rstBit_getFrameWord _ _), send_strobed (rstBit_cmdWord _),
    exec_of_decode (decode_getFrameWord _ _)] at hboard
  rcases hcb with ⟨d, o, -, -, rfl⟩
  have hlatched : b'.latched =
      PdhCmdT.strobe.set 1#1 (getFrameWord (decimationOf ctx) (ctx.uintArgs 1)) := by
    rw [hboard]
  have hdec : b'.config.regs.dmaDecimationCodeR = (decimationOf ctx).setWidth 22 := by
    rw [hboard]
    rfl
  have hframe : b'.config.regs.frameCodeR = (ctx.uintArgs 1).setWidth 4 := by
    rw [hboard]
    rfl
  have hdecode := hlatched ▸ decode_getFrameWord (decimationOf ctx) (ctx.uintArgs 1)
  have hread := read_nextCallbackW hdecode b'.config.regs d o
  rcases CallbackView.getFrameCb.inj hread with ⟨-, hdecR, hframeR⟩
  exact ⟨cmd_nextCallbackW hdecode _ _ _, hdecR.trans hdec, hframeR.trans hframe⟩

theorem cmdGetFrame_code {ctx : CmdCtx F} {tr : Trace} {reply : Reply F} {b b' : Board}
    (hrun : Performs (cmdGetFrame ctx) tr reply) (hfollows : Follows board b tr b') :
    reply.returnCode =
      if !fileOpened "dma_log.csv" tr then 1
      else if 15#32 < ctx.uintArgs 1 then GetFrameE.invalidCode.code
      else if 0x3FFFFF#32 < ctx.uintArgs 0 then GetFrameE.invalidDec.code
      else 0 := by
  rcases performs_frame.mp hrun with ⟨sel, cb, rest, rfl, hlog⟩
  rcases follows_append.mp hfollows with ⟨b₁, horder, hrest⟩
  rcases hrest with _ | ⟨⟨⟩, hrest⟩
  rcases hrest with _ | ⟨⟨-, hcb⟩, -⟩
  rcases frame_callback horder hcb with ⟨hcmd, hdec, hframe⟩
  have hopened : fileOpened "dma_log.csv" (orderCalls ctx ++
      ⟨.select (330#32 + 140#32 * decimationOf ctx), sel⟩ :: ⟨.pdhGetCallback, cb⟩ ::
        (drainCalls sel ++ rest)) = fileOpened "dma_log.csv" rest := by
    rw [fileOpened_append, fileOpened_of_quiet _ (quiet_orderCalls ctx), Bool.false_or]
    exact (fileOpened_append _ (drainCalls sel) rest).trans
      (by rw [fileOpened_of_quiet _ (quiet_drainCalls sel), Bool.false_or])
  rw [hopened, logFrame_code hlog, getFrameReply_code hcmd hdec hframe]
  simp only [decimationOf_lt_iff]
  cases fileOpened "dma_log.csv" rest with
  | true => rfl
  | false => rfl

end GetFrame

/-! ## Requests -/

section Requests

variable {F : Type} [MixedPrecision F]

/-- Every handler returns the code of its request. -/
theorem handler_code (h : Handler) {stack : BitVec 32} {ctx : CmdCtx F} {tr : Trace}
    {reply : Reply F} {b b' : Board} (hrun : Performs (h.run stack ctx) tr reply)
    (hfollows : Follows board b tr b') :
    reply.returnCode = answerCode stack ctx (fileOpened "sweep_log.csv" tr)
      (fileOpened "dma_log.csv" tr) h := by
  have hanswers : ∀ {k : ℕ}, AnswersWith (h.run stack ctx) k → reply.returnCode = k :=
    fun hk => hk b tr reply b' trivial hrun hfollows
  cases h with
  | setLed => exact hanswers (cmdSetLed_answers ctx)
  | resetFpga =>
      rcases performs_call.mp hrun with ⟨_, _, -, hlow⟩
      rcases performs_call.mp hlow with ⟨_, _, -, hcallback⟩
      rcases performs_call.mp hcallback with ⟨_, _, -, hreply⟩
      rw [(performs_pure.mp hreply).2]
      rfl
  | setDac => exact hanswers (cmdSetDac_answers ctx)
  | getAdc => exact hanswers cmdGetAdc_answers
  | checkSigned => exact hanswers (cmdCheckSigned_answers ctx)
  | setRot => exact hanswers (cmdSetRot_answers ctx)
  | getFrame => exact cmdGetFrame_code hrun hfollows
  | testFrame =>
      rw [(performs_pure.mp hrun).2]
      rfl
  | setPid => exact hanswers (cmdSetPid_answers ctx)
  | setFir => exact hanswers (cmdSetFir_answers ctx)
  | setNco => exact hanswers (cmdSetNco_answers ctx)
  | configIo => exact hanswers (cmdConfigIo_answers stack ctx)
  | configDemod => exact hanswers (cmdConfigDemod_answers ctx)
  | sweepRamp =>
      rw [answerCode]
      by_cases hargs : rampArgsCode ctx = .ok
      · rw [if_neg (not_not.mpr hargs)]
        exact (performs_ramp hargs hrun hfollows).2
      · rw [if_pos hargs]
        refine hanswers ?_
        change AnswersWith (cmdSweepRamp ctx) _
        unfold cmdSweepRamp
        rw [if_pos hargs]
        exact answersWith_pure rfl

/-- The code in the reply to a text that was loaded.  A request that reaches no handler is
answered as if it had succeeded. -/
def replyCode (stack : BitVec 32) (ctx : LoadedCtx F) (ramp frame : Bool) : ℕ :=
  match findEntry ctx.name with
  | none => 0
  | some e => if e.check ctx = .ok then answerCode stack ctx.toCmdCtx ramp frame e.func else 0

/-- What a text is answered with on a faithful board. -/
theorem serve_code {stack : BitVec 32} {inbuff : List Char} {tr : Trace}
    {reply : Option (List Char)} {b b' : Board} {ctx : LoadedCtx F}
    (hload : loadContext (cString inbuff.dropLast) = some ctx)
    (hrun : Performs (Server.serve F stack inbuff) tr reply) (hfollows : Follows board b tr b') :
    ∃ r : Reply F, reply = sendResponse ctx.name r ∧
      r.returnCode = replyCode stack ctx (fileOpened "sweep_log.csv" tr)
        (fileOpened "dma_log.csv" tr) := by
  unfold replyCode
  rcases performs_serve_some hload hrun with ⟨e, r, he, hhandler, hreply⟩ | ⟨hnone, -, hreply⟩
  · refine ⟨r, hreply, ?_⟩
    rw [he.1]
    dsimp only
    rw [if_pos he.2]
    exact handler_code e.func hhandler hfollows
  · refine ⟨_, hreply, ?_⟩
    cases hentry : findEntry ctx.name with
    | none => rfl
    | some e => exact (if_neg fun hcheck => hnone e ⟨hentry, hcheck⟩).symm

/-- Whatever was sent to the core since its reset, a text that is loaded is answered with the code
that its arguments and its files give. -/
theorem session_codes (rom : Nco.Rom) (requests : List (Request F)) {g : Gpio}
    (hfollows : Follows (slowGpio rom) ⟨heldInReset rom, 0x80000000#32⟩
      (requests.flatMap Request.trace) g) :
    ∀ q ∈ requests, ∀ ctx : LoadedCtx F, loadContext (cString q.inbuff.dropLast) = some ctx →
      ∃ r : Reply F, q.reply = sendResponse ctx.name r ∧
        r.returnCode = replyCode q.stack ctx (fileOpened "sweep_log.csv" q.trace)
          (fileOpened "dma_log.csv" q.trace) := by
  intro q hq ctx hload
  rcases slowGpio_refines_reset hfollows with ⟨b, hboard, -⟩
  rcases List.append_of_mem hq with ⟨before, after, rfl⟩
  rw [List.flatMap_append, List.flatMap_cons] at hboard
  rcases follows_append.mp hboard with ⟨b₁, -, hrest⟩
  rcases follows_append.mp hrest with ⟨b₂, hserved, -⟩
  exact serve_code hload q.served hserved

/-- The second of the three texts is refused, and its code does not change that of the third. -/
theorem session_codes_threeTexts :
    ∃ (requests : List (Request ℚ)) (g : Gpio) (r₁ r₂ r₃ : Reply ℚ),
      requests.map (fun q => (q.stack, q.inbuff)) = threeTexts.map (fun text => (0#32, text)) ∧
      Follows (slowGpio fun _ => 0#16) ⟨heldInReset fun _ => 0#16, 0x80000000#32⟩
        (requests.flatMap Request.trace) g ∧
      requests.map Request.reply = [sendResponse "set_led".toList r₁,
        sendResponse "set_led".toList r₂, sendResponse "config_io".toList r₃] ∧
      r₁.returnCode = 0 ∧ r₂.returnCode = SetLedE.invalidLed.code ∧ r₃.returnCode = 0 := by
  rcases exists_requests (F := ℚ) (fun _ => 0#16) 0#32 threeTexts
    ⟨heldInReset fun _ => 0#16, 0x80000000#32⟩ with ⟨requests, g, hsame, hfollows⟩
  have hcodes := session_codes _ requests hfollows
  have hreply : ∀ (q : Request ℚ) (text name : List Char) (code : ℕ), q ∈ requests →
      (q.stack, q.inbuff) = (0#32, text) →
      (∃ ctx : LoadedCtx ℚ, loadContext (cString text.dropLast) = some ctx ∧ ctx.name = name ∧
        ∀ ramp frame, replyCode 0#32 ctx ramp frame = code) →
      ∃ r : Reply ℚ, q.reply = sendResponse name r ∧ r.returnCode = code := by
    rintro q text name code hq htext ⟨ctx, hctx, rfl, hcode⟩
    simp only [Prod.mk.injEq] at htext
    rw [← htext.2] at hctx
    rcases hcodes q hq ctx hctx with ⟨r, hr, hanswer⟩
    exact ⟨r, hr, by rw [hanswer, htext.1, hcode]⟩
  rcases exists_of_map_eq_three hsame with ⟨q₁, q₂, q₃, rfl, h₁, h₂, h₃⟩
  rcases hreply q₁ _ "set_led".toList 0 (by simp) h₁ ⟨_, rfl, by decide +kernel⟩ with
    ⟨r₁, hr₁, hcode₁⟩
  rcases hreply q₂ _ "set_led".toList SetLedE.invalidLed.code (by simp) h₂
    ⟨_, rfl, by decide +kernel⟩ with ⟨r₂, hr₂, hcode₂⟩
  rcases hreply q₃ _ "config_io".toList 0 (by simp) h₃ ⟨_, rfl, by decide +kernel⟩ with
    ⟨r₃, hr₃, hcode₃⟩
  refine ⟨_, g, r₁, r₂, r₃, hsame, hfollows, ?_, hcode₁, hcode₂, hcode₃⟩
  simp only [List.map_cons, List.map_nil, hr₁, hr₂, hr₃]

end Requests

end Requests
end PoundDreverHall
