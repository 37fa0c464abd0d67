import PoundDreverHall.Irq.Count
import PoundDreverHall.Requests.Callback
import PoundDreverHall.Requests.SweepRouting

/-!
# Requests - the interrupt of a command against its callback

The interrupt is raised on the clock edge that latches a command.  On the same edge the callback
register still takes the callback of the command before it, on the registers as they are.  The new
callback follows one clock period later, and the registers it shows have executed the command
another period later.

Main results:

- Theorem {lit}`nextCallbackW_eq_iff`: when two callbacks are the same word.
- Theorem {lit}`executed_of_wasReset`: when a command is latched, the one before it has been
  executed.
- Theorem {lit}`callbackReady_iff` and theorem {lit}`readyWithInterrupt_iff`: when the callback is
  there with the interrupt, for one command and over a run.
-/

namespace PoundDreverHall
namespace Requests

open Clocked Device Server PdhCore

/-! ## Equal callbacks -/

/-- The view of a word; a command that is not assigned is seen as an idle one. -/
def viewOf (w : BitVec 32) : CmdView :=
  (decode w).getD .idle

/-- A word is decoded to its view, or its command is unassigned and answered like an idle one. -/
theorem decode_viewOf (w : BitVec 32) :
    decode w = some (viewOf w) ∨ (cmdW w = .unassigned ∧ viewOf w = .idle) := by
  unfold viewOf decode
  cases hcmd : cmdW w with
  | unassigned => exact Or.inr ⟨rfl, rfl⟩
  | _ => exact Or.inl rfl

/-- The fields of a callback, from the highest bit down. -/
def CallbackView.packed : CallbackView → List ((n : ℕ) × BitVec n)
  | .idle => [⟨4, 0b0000#4⟩, ⟨28, 0#28⟩]
  | .ledCb code => [⟨4, 0b0001#4⟩, ⟨20, 0#20⟩, ⟨8, code⟩]
  | .dacCb dac2 dac1 => [⟨4, 0b0010#4⟩, ⟨14, dac1⟩, ⟨14, dac2⟩]
  | .adcCb adc0 adc1 => [⟨4, 0b0011#4⟩, ⟨14, adc1⟩, ⟨14, adc0⟩]
  | .csCb payload regSel => [⟨4, 0b0100#4⟩, ⟨7, 0#7⟩, ⟨5, regSel⟩, ⟨16, payload⟩]
  | .checkIoCb dac1 dac2 pid regSel =>
      [⟨4, 0b0100#4⟩, ⟨7, 0#7⟩, ⟨5, regSel⟩, ⟨7, 0#7⟩, ⟨3, pid⟩, ⟨3, dac2⟩, ⟨3, dac1⟩]
  | .setRotCoeffCb cosTheta sinTheta => [⟨4, 0b0101#4⟩, ⟨14, sinTheta⟩, ⟨14, cosTheta⟩]
  | .commitRotCoeffCb iFeed qFeed => [⟨4, 0b0110#4⟩, ⟨14, qFeed⟩, ⟨14, iFeed⟩]
  | .getFrameCb engaged decimation frameCode =>
      [⟨4, 0b0111#4⟩, ⟨1, 0#1⟩, ⟨4, frameCode⟩, ⟨22, decimation⟩, ⟨1, engaged⟩]
  | .setPidCb payload coeffSel => [⟨4, 0b1000#4⟩, ⟨8, 0#8⟩, ⟨4, coeffSel⟩, ⟨16, payload⟩]
  | .setNcoCb en inv sub shift stride =>
      [⟨4, 0b1001#4⟩, ⟨1, 0#1⟩, ⟨12, stride⟩, ⟨12, shift⟩, ⟨1, sub⟩, ⟨1, inv⟩, ⟨1, en⟩]
  | .setFirCb payload updateSel => [⟨4, 0b1010#4⟩, ⟨9, 0#9⟩, ⟨3, updateSel⟩, ⟨16, payload⟩]
  | .configDemodCb refSel inSel lpfAlpha =>
      [⟨4, 0b1011#4⟩, ⟨20, 0#20⟩, ⟨4, lpfAlpha⟩, ⟨3, inSel⟩, ⟨1, refSel⟩]
  | .configIoCb dac1 dac2 pid => [⟨4, 0b1110#4⟩, ⟨19, 0#19⟩, ⟨3, pid⟩, ⟨3, dac2⟩, ⟨3, dac1⟩]

/-- The word of an answer. -/
theorem packed_answer (v : CmdView) (r : Regs) (d : DacRegs) (o : Observed) :
    (v.answer r d o).packed = v.packed r d o := by
  cases v <;> rfl

/-- A callback is the packed answer of its command. -/
theorem toNat_callback (w : BitVec 32) (r : Regs) (d : DacRegs) (o : Observed) :
    (nextCallbackW w r d o).toNat = packNat ((viewOf w).answer r d o).packed := by
  rw [packed_answer]
  rcases decode_viewOf w with hdecode | ⟨hcmd, hview⟩
  · exact toNat_nextCallbackW hdecode r d o
  · rw [hview, nextCallbackW, hcmd]
    rfl

/-- A callback names the command of the word and is read back as its answer. -/
theorem read_callback (w : BitVec 32) (r : Regs) (d : DacRegs) (o : Observed) :
    PdhCallbackT.cmd.get (nextCallbackW w r d o) = (viewOf w).cmd.code ∧
      CallbackView.read (nextCallbackW w r d o) (viewOf w).cmd = (viewOf w).answer r d o := by
  rcases decode_viewOf w with hdecode | ⟨hcmd, hview⟩
  · exact ⟨cmd_nextCallbackW hdecode r d o, read_nextCallbackW hdecode r d o⟩
  · rw [hview, nextCallbackW, hcmd]
    exact ⟨show PdhCallbackT.cmd.get 0#32 = 0b0000#4 by decide, rfl⟩

theorem code_injective {c c' : PdhCmdE} (h : c.code = c'.code) : c = c' := by
  cases c <;> cases c' <;> first | rfl | exact absurd h (by decide)

/-- Two callbacks are the same word if and only if they answer the same. -/
theorem nextCallbackW_eq_iff {u w : BitVec 32} {r r' : Regs} {d d' : DacRegs} {o o' : Observed} :
    nextCallbackW u r d o = nextCallbackW w r' d' o' ↔
      (viewOf u).answer r d o = (viewOf w).answer r' d' o' := by
  constructor
  · intro h
    have hu := read_callback u r d o
    have hw := read_callback w r' d' o'
    rw [h] at hu
    have hcmd : (viewOf u).cmd = (viewOf w).cmd := code_injective (hu.1.symm.trans hw.1)
    rw [← hu.2, ← hw.2, hcmd]
  · intro h
    apply BitVec.eq_of_toNat_eq
    rw [toNat_callback, toNat_callback, h]

/-! ## Repeated commands -/

/-- The command {lit}`v` and then the command that is matched get the same callback: both are the
same command, on the same register where the callback names it, and the registers hold already
what the second one writes, as far as its callback shows it. -/
def Repeats (c : Config) (v : CmdView) : CmdView → Prop
  | .idle => v = .idle
  | .ledCmd ledCode => v.cmd = .setLed ∧ c.regs.ledR = ledCode
  | .dacCmd dacCode dacSel =>
      v.cmd = .setDac ∧ (if dacSel = 1#1 then c.dac2DatR else c.dac1DatR) = dacCode
  | .adcCmd => v.cmd = .getAdc
  | .csCmd regSel => v = .csCmd regSel
  | .setRotCoeffCmd rotPayload rotSelect =>
      v.cmd = .setRotCoeffs ∧
        (if rotSelect = 1#1 then c.regs.sinThetaR else c.regs.cosThetaR).extractLsb' 2 14 =
          rotPayload.extractLsb' 2 14
  | .commitRotCoeffCmd => v.cmd = .commitRotCoeffs
  | .getFrameCmd decimation frameCode =>
      v.cmd = .getFrame ∧ c.regs.dmaDecimationCodeR = decimation ∧ c.regs.frameCodeR = frameCode
  | .setPidCmd payload coeffSel =>
      (∃ payload', v = .setPidCmd payload' coeffSel) ∧
        ∀ sel ∈ PidCoeffSelE.ofCode coeffSel, pidRegister c.regs sel = pidEcho payload sel
  | .setNcoCmd payload coeffSel =>
      v.cmd = .setNco ∧
        ∀ sel ∈ NcoCoeffSelE.ofCode coeffSel, writeNco sel payload c.regs = c.regs
  | .setFirCmd payload updateSel =>
      (∃ payload', v = .setFirCmd payload' updateSel) ∧
        ∀ sel ∈ FirUpdateSelE.ofCode updateSel, firRegister c.regs sel = firEcho payload sel
  | .configDemodCmd refSel inSel lpfAlpha =>
      v.cmd = .configDemod ∧ BitVec.ofBool c.regs.demodRefSelR = refSel ∧
        c.regs.demodInSelR = inSel ∧ c.regs.demodLpfAlphaR = lpfAlpha
  | .configIoCmd dac1DatSel dac2DatSel pidDatSel =>
      v.cmd = .configIo ∧ c.regs.dac1DatSelR = dac1DatSel ∧ c.regs.dac2DatSelR = dac2DatSel ∧
        c.regs.pidSelR = pidDatSel

/-- The DAC registers of a configuration; the callbacks do not show the third one. -/
def dacRegs (c : Config) : DacRegs :=
  ⟨false, c.dac1DatR, c.dac2DatR⟩

/-- The callback of a command on a configuration. -/
def callbackOf (w : BitVec 32) (c : Config) (o : Observed) : BitVec 32 :=
  nextCallbackW w c.regs (dacRegs c) o

/-- The callback depends on the registers of the configuration only. -/
theorem nextCallbackW_config (w : BitVec 32) {r : Regs} {d : DacRegs} {c : Config} (o : Observed)
    (hr : r = c.regs) (h1 : d.dac1DatR = c.dac1DatR) (h2 : d.dac2DatR = c.dac2DatR) :
    nextCallbackW w r d o = callbackOf w c o := by
  subst hr
  rw [callbackOf, nextCallbackW, nextCallbackW, h1, h2]
  rfl

/-- The registers of the converters after a command. -/
theorem exec_dac (w : BitVec 32) (c : Config) :
    (exec w c).dac1DatR = (DacRegs.next w (dacRegs c)).dac1DatR ∧
      (exec w c).dac2DatR = (DacRegs.next w (dacRegs c)).dac2DatR := by
  unfold exec DacRegs.next
  cases hcmd : cmdW w with
  | setDac => cases hsel : (dataW w).getLsbD 14 <;> simp [dacRegs]
  | _ => simp [dacRegs]

/-- What a command does to a configuration, by its view. -/
theorem exec_viewOf (w : BitVec 32) (c : Config) :
    (exec w c).regs = (viewOf w).exec c.regs ∧
      (exec w c).dac1DatR = ((viewOf w).execDac (dacRegs c)).dac1DatR ∧
        (exec w c).dac2DatR = ((viewOf w).execDac (dacRegs c)).dac2DatR := by
  rcases decode_viewOf w with hdecode | ⟨hcmd, hview⟩
  · rw [exec_regs, ← next_eq_execRegs, next_of_decode hdecode, ← dacNext_of_decode hdecode]
    exact ⟨rfl, exec_dac w c⟩
  · rw [hview, exec, hcmd]
    refine ⟨?_, rfl, rfl⟩
    rw [execRegs, hcmd]
    rfl

section Answers

variable {v : CmdView} {r : Regs} {d : DacRegs} {o : Observed}

/-- Only an idle command has an idle answer. -/
theorem answer_eq_idle : v.answer r d o = .idle ↔ v = .idle := by
  cases v <;> simp [CmdView.answer]

/-- The LED code of an answer is the one in the register. -/
theorem answer_eq_ledCb {code : BitVec 8} :
    v.answer r d o = .ledCb code ↔ v.cmd = .setLed ∧ r.ledR = code := by
  cases v <;> simp [CmdView.answer, CmdView.cmd]

/-- Both converter codes are answered. -/
theorem answer_eq_dacCb {dac2 dac1 : BitVec 14} :
    v.answer r d o = .dacCb dac2 dac1 ↔
      v.cmd = .setDac ∧ d.dac2DatR = dac2 ∧ d.dac1DatR = dac1 := by
  cases v <;> simp [CmdView.answer, CmdView.cmd]

/-- Both inputs are answered. -/
theorem answer_eq_adcCb {adc0 adc1 : BitVec 14} :
    v.answer r d o = .adcCb adc0 adc1 ↔
      v.cmd = .getAdc ∧ o.adcDatAI = adc0 ∧ o.adcDatBI = adc1 := by
  cases v <;> simp [CmdView.answer, CmdView.cmd]

/-- A register read names the register and answers its value. -/
theorem answer_eq_csCb {payload : BitVec 16} {regSel : BitVec 5} :
    v.answer r d o = .csCb payload regSel ↔
      v = .csCmd regSel ∧ csPayloadW regSel r o = payload := by
  cases v with
  | csCmd sel =>
      simp only [CmdView.answer, CallbackView.csCb.injEq, CmdView.csCmd.injEq]
      constructor
      · rintro ⟨hpayload, rfl⟩
        exact ⟨rfl, hpayload⟩
      · rintro ⟨rfl, hpayload⟩
        exact ⟨hpayload, rfl⟩
  | _ => simp [CmdView.answer]

/-- Of the coefficients the upper fourteen bits are answered. -/
theorem answer_eq_setRotCoeffCb {cosTheta sinTheta : BitVec 14} :
    v.answer r d o = .setRotCoeffCb cosTheta sinTheta ↔
      v.cmd = .setRotCoeffs ∧ r.cosThetaR.extractLsb' 2 14 = cosTheta ∧
        r.sinThetaR.extractLsb' 2 14 = sinTheta := by
  cases v <;> simp [CmdView.answer, CmdView.cmd]

/-- So are those of the rotated signals. -/
theorem answer_eq_commitRotCoeffCb {iFeed qFeed : BitVec 14} :
    v.answer r d o = .commitRotCoeffCb iFeed qFeed ↔
      v.cmd = .commitRotCoeffs ∧ o.iFeedR.extractLsb' 2 14 = iFeed ∧
        o.qFeedR.extractLsb' 2 14 = qFeed := by
  cases v <;> simp [CmdView.answer, CmdView.cmd]

/-- A frame request answers with the readiness and both codes. -/
theorem answer_eq_getFrameCb {engaged : BitVec 1} {decimation : BitVec 22}
    {frameCode : BitVec 4} :
    v.answer r d o = .getFrameCb engaged decimation frameCode ↔
      v.cmd = .getFrame ∧ BitVec.ofBool o.dmaReady3ff = engaged ∧
        r.dmaDecimationCodeR = decimation ∧ r.frameCodeR = frameCode := by
  cases v <;> simp [CmdView.answer, CmdView.cmd]

/-- A controller write answers with its selector and the register that it selects. -/
theorem answer_eq_setPidCb {payload : BitVec 16} {coeffSel : BitVec 4} :
    v.answer r d o = .setPidCb payload coeffSel ↔
      (∃ payload', v = .setPidCmd payload' coeffSel) ∧
        (PidCoeffSelE.ofCode coeffSel).elim 0#16 (pidRegister r) = payload := by
  cases v with
  | setPidCmd payload' sel =>
      simp only [CmdView.answer, CallbackView.setPidCb.injEq, CmdView.setPidCmd.injEq]
      constructor
      · rintro ⟨hpayload, rfl⟩
        exact ⟨⟨payload', rfl, rfl⟩, hpayload⟩
      · rintro ⟨⟨_, -, rfl⟩, hpayload⟩
        exact ⟨hpayload, rfl⟩
  | _ => simp [CmdView.answer]

/-- An oscillator write answers with all five registers. -/
theorem answer_eq_setNcoCb {en inv sub : BitVec 1} {shift stride : BitVec 12} :
    v.answer r d o = .setNcoCb en inv sub shift stride ↔
      v.cmd = .setNco ∧ BitVec.ofBool r.ncoEnR = en ∧ BitVec.ofBool r.ncoInvR = inv ∧
        BitVec.ofBool r.ncoSubR = sub ∧ r.ncoShiftR = shift ∧ r.ncoStrideR = stride := by
  cases v <;> simp [CmdView.answer, CmdView.cmd]

/-- A filter write answers with its selector and the register that it selects. -/
theorem answer_eq_setFirCb {payload : BitVec 16} {updateSel : BitVec 3} :
    v.answer r d o = .setFirCb payload updateSel ↔
      (∃ payload', v = .setFirCmd payload' updateSel) ∧
        (FirUpdateSelE.ofCode updateSel).elim 0#16 (firRegister r) = payload := by
  cases v with
  | setFirCmd payload' sel =>
      simp only [CmdView.answer, CallbackView.setFirCb.injEq, CmdView.setFirCmd.injEq]
      constructor
      · rintro ⟨hpayload, rfl⟩
        exact ⟨⟨payload', rfl, rfl⟩, hpayload⟩
      · rintro ⟨⟨_, -, rfl⟩, hpayload⟩
        exact ⟨hpayload, rfl⟩
  | _ => simp [CmdView.answer]

/-- A demodulator write answers with its three registers. -/
theorem answer_eq_configDemodCb {refSel : BitVec 1} {inSel : BitVec 3} {lpfAlpha : BitVec 4} :
    v.answer r d o = .configDemodCb refSel inSel lpfAlpha ↔
      v.cmd = .configDemod ∧ BitVec.ofBool r.demodRefSelR = refSel ∧ r.demodInSelR = inSel ∧
        r.demodLpfAlphaR = lpfAlpha := by
  cases v <;> simp [CmdView.answer, CmdView.cmd]

/-- A routing write answers with the three selectors. -/
theorem answer_eq_configIoCb {dac1 dac2 pid : BitVec 3} :
    v.answer r d o = .configIoCb dac1 dac2 pid ↔
      v.cmd = .configIo ∧ r.dac1DatSelR = dac1 ∧ r.dac2DatSelR = dac2 ∧ r.pidSelR = pid := by
  cases v <;> simp [CmdView.answer, CmdView.cmd]

end Answers

/-- A write leaves the oscillator as it is if and only if its callback shows the same values. -/
theorem writeNco_eq_iff {sel : NcoCoeffSelE} {payload : BitVec 16} {r : Regs} :
    writeNco sel payload r = r ↔
      r.ncoEnR = (writeNco sel payload r).ncoEnR ∧ r.ncoInvR = (writeNco sel payload r).ncoInvR ∧
        r.ncoSubR = (writeNco sel payload r).ncoSubR ∧
        r.ncoShiftR = (writeNco sel payload r).ncoShiftR ∧
        r.ncoStrideR = (writeNco sel payload r).ncoStrideR := by
  constructor
  · intro h
    rw [h]
    exact ⟨rfl, rfl, rfl, rfl, rfl⟩
  · rintro ⟨hen, hinv, hsub, hshift, hstride⟩
    cases sel with
    | stride => exact congrArg (fun x => { r with ncoStrideR := x }) hstride.symm
    | shift => exact congrArg (fun x => { r with ncoShiftR := x }) hshift.symm
    | inv => exact congrArg (fun x => { r with ncoInvR := x }) hinv.symm
    | sub => exact congrArg (fun x => { r with ncoSubR := x }) hsub.symm
    | en => exact congrArg (fun x => { r with ncoEnR := x }) hen.symm

theorem ofBool_inj {a b : Bool} : BitVec.ofBool a = BitVec.ofBool b ↔ a = b := by
  cases a <;> cases b <;> decide

/-! ### One command after another -/

section Repeat

variable {c : Config} {v : CmdView} {o : Observed} (o' : Observed)

/-- A converter write after any command. -/
theorem repeats_dacCmd {dacCode : BitVec 14} {dacSel : BitVec 1} :
    v.answer c.regs (dacRegs c) o =
        (CmdView.dacCmd dacCode dacSel).answer c.regs
          ((CmdView.dacCmd dacCode dacSel).execDac (dacRegs c)) o' ↔
      Repeats c v (.dacCmd dacCode dacSel) := by
  refine answer_eq_dacCb.trans ?_
  by_cases hsel : dacSel = 1#1
  · simp [CmdView.execDac, Repeats, hsel, dacRegs]
  · simp [CmdView.execDac, Repeats, hsel, dacRegs]

/-- A coefficient write after any command. -/
theorem repeats_setRotCoeffCmd {rotPayload : BitVec 16} {rotSelect : BitVec 1} :
    v.answer c.regs (dacRegs c) o =
        (CmdView.setRotCoeffCmd rotPayload rotSelect).answer
          ((CmdView.setRotCoeffCmd rotPayload rotSelect).exec c.regs) (dacRegs c) o' ↔
      Repeats c v (.setRotCoeffCmd rotPayload rotSelect) := by
  refine answer_eq_setRotCoeffCb.trans ?_
  by_cases hsel : rotSelect = 1#1
  · simp [CmdView.exec, Repeats, hsel]
  · simp [CmdView.exec, Repeats, hsel]

/-- A controller write after any command. -/
theorem repeats_setPidCmd {payload : BitVec 16} {coeffSel : BitVec 4} :
    v.answer c.regs (dacRegs c) o =
        (CmdView.setPidCmd payload coeffSel).answer
          ((CmdView.setPidCmd payload coeffSel).exec c.regs) (dacRegs c) o' ↔
      Repeats c v (.setPidCmd payload coeffSel) := by
  refine answer_eq_setPidCb.trans ?_
  cases hsel : PidCoeffSelE.ofCode coeffSel with
  | none => simp [Repeats, hsel]
  | some sel => simp [CmdView.exec, Repeats, hsel, pidRegister_writePid]

/-- An oscillator write after any command. -/
theorem repeats_setNcoCmd {payload : BitVec 16} {coeffSel : BitVec 3} :
    v.answer c.regs (dacRegs c) o =
        (CmdView.setNcoCmd payload coeffSel).answer
          ((CmdView.setNcoCmd payload coeffSel).exec c.regs) (dacRegs c) o' ↔
      Repeats c v (.setNcoCmd payload coeffSel) := by
  refine answer_eq_setNcoCb.trans ?_
  cases hsel : NcoCoeffSelE.ofCode coeffSel with
  | none => simp [CmdView.exec, Repeats, hsel]
  | some sel => simp [CmdView.exec, Repeats, hsel, writeNco_eq_iff, ofBool_inj]

/-- A filter write after any command. -/
theorem repeats_setFirCmd {payload : BitVec 16} {updateSel : BitVec 3} :
    v.answer c.regs (dacRegs c) o =
        (CmdView.setFirCmd payload updateSel).answer
          ((CmdView.setFirCmd payload updateSel).exec c.regs) (dacRegs c) o' ↔
      Repeats c v (.setFirCmd payload updateSel) := by
  refine answer_eq_setFirCb.trans ?_
  cases hsel : FirUpdateSelE.ofCode updateSel with
  | none => simp [Repeats, hsel]
  | some sel => simp [CmdView.exec, Repeats, hsel, firRegister_writeFir]

/-- A demodulator write after any command. -/
theorem repeats_configDemodCmd {refSel : BitVec 1} {inSel : BitVec 3} {lpfAlpha : BitVec 4} :
    v.answer c.regs (dacRegs c) o =
        (CmdView.configDemodCmd refSel inSel lpfAlpha).answer
          ((CmdView.configDemodCmd refSel inSel lpfAlpha).exec c.regs) (dacRegs c) o' ↔
      Repeats c v (.configDemodCmd refSel inSel lpfAlpha) := by
  refine answer_eq_configDemodCb.trans ?_
  rw [Repeats, CmdView.exec, ofBool_bit_zero refSel, BitVec.setWidth_eq]

end Repeat

/-- The callback of one command is that of the next one, executed, for some readings of the
converters and of the signal path, if and only if the next one repeats it. -/
theorem repeats_iff {c : Config} {v v' : CmdView} (o : Observed) :
    (∃ o', v.answer c.regs (dacRegs c) o =
        v'.answer (v'.exec c.regs) (v'.execDac (dacRegs c)) o') ↔ Repeats c v v' := by
  -- most commands are answered without the readings
  have hconst : ∀ {P : Observed → Prop} {Q : Prop}, (∀ o', P o' ↔ Q) → ((∃ o', P o') ↔ Q) := by
    intro P Q h
    have : Nonempty Observed := ⟨o⟩
    rw [exists_congr h, exists_const]
  cases v' with
  | idle => exact hconst fun _ => answer_eq_idle
  | ledCmd ledCode => exact hconst fun _ => answer_eq_ledCb
  | dacCmd dacCode dacSel => exact hconst fun o' => repeats_dacCmd o'
  | adcCmd =>
      constructor
      · rintro ⟨o', h⟩
        exact (answer_eq_adcCb.mp h).1
      · intro h
        exact ⟨o, answer_eq_adcCb.mpr ⟨h, rfl, rfl⟩⟩
  | csCmd regSel =>
      constructor
      · rintro ⟨o', h⟩
        exact (answer_eq_csCb.mp h).1
      · intro h
        exact ⟨o, answer_eq_csCb.mpr ⟨h, rfl⟩⟩
  | setRotCoeffCmd rotPayload rotSelect => exact hconst fun o' => repeats_setRotCoeffCmd o'
  | commitRotCoeffCmd =>
      constructor
      · rintro ⟨o', h⟩
        exact (answer_eq_commitRotCoeffCb.mp h).1
      · intro h
        exact ⟨o, answer_eq_commitRotCoeffCb.mpr ⟨h, rfl, rfl⟩⟩
  | getFrameCmd decimation frameCode =>
      constructor
      · rintro ⟨o', h⟩
        rcases answer_eq_getFrameCb.mp h with ⟨hcmd, -, hregs⟩
        exact ⟨hcmd, hregs⟩
      · rintro ⟨hcmd, hregs⟩
        exact ⟨o, answer_eq_getFrameCb.mpr ⟨hcmd, rfl, hregs⟩⟩
  | setPidCmd payload coeffSel => exact hconst fun o' => repeats_setPidCmd o'
  | setNcoCmd payload coeffSel => exact hconst fun o' => repeats_setNcoCmd o'
  | setFirCmd payload updateSel => exact hconst fun o' => repeats_setFirCmd o'
  | configDemodCmd refSel inSel lpfAlpha => exact hconst fun o' => repeats_configDemodCmd o'
  | configIoCmd dac1DatSel dac2DatSel pidDatSel => exact hconst fun _ => answer_eq_configIoCb

/-! ## The interrupt -/

theorem answer_dac (v : CmdView) (r : Regs) {d d' : DacRegs} (o : Observed)
    (h1 : d.dac1DatR = d'.dac1DatR) (h2 : d.dac2DatR = d'.dac2DatR) :
    v.answer r d o = v.answer r d' o := by
  cases v with
  | dacCmd dacCode dacSel => simp only [CmdView.answer, h1, h2]
  | _ => rfl

/-- The callback of the command {lit}`u` is that of {lit}`w`, executed, for some readings, if and
only if {lit}`w` repeats {lit}`u`. -/
theorem callbackOf_exec_iff {u w : BitVec 32} {c : Config} (o : Observed) :
    (∃ o', callbackOf u c o = callbackOf w (exec w c) o') ↔ Repeats c (viewOf u) (viewOf w) := by
  rcases exec_viewOf w c with ⟨hregs, h1, h2⟩
  rw [← repeats_iff o]
  refine exists_congr fun o' => ?_
  rw [callbackOf, callbackOf, nextCallbackW_eq_iff, hregs,
    answer_dac (viewOf w) ((viewOf w).exec c.regs) o' h1 h2]

/-- When a command is latched, the one before it has been executed. -/
theorem executed_of_wasReset {rom : Nco.Rom} {s : State} {w : BitVec 32} (hs : WasReset rom s)
    (hlive : Live s) (hload : load s.latch = some w) :
    exec s.latch.axiFromPsR s.config = s.config := by
  have hprev : s.latch.uStrobeEdgeDetector.prevD = false := by
    simp only [load, Latch.strobeEdgeW, PosedgeDetector.q] at hload
    cases hd : s.latch.uStrobeEdgeDetector.prevD with
    | false => rfl
    | true => simp [hd] at hload
  rcases hs with ⟨s₀, past, m, ⟨j, hjm, hj⟩, rfl⟩
  obtain ⟨n, rfl⟩ : ∃ n, m = n + 1 := ⟨m - 1, by omega⟩
  rw [run_succ] at hlive hprev ⊢
  have hrst : (past n).rstI = false := by
    rw [Bool.eq_false_iff]
    intro hrst
    have hasserted := (step_rst rom (run (step rom) s₀ past n) hrst).1
    rw [hlive.1] at hasserted
    exact absurd hasserted (by decide)
  have hbefore : WasReset rom (run (step rom) s₀ past n) := by
    refine ⟨s₀, past, n, ⟨j, ?_, hj⟩, rfl⟩
    rcases Nat.lt_succ_iff_lt_or_eq.mp hjm with hlt | rfl
    · exact hlt
    · rw [hj] at hrst
      cases hrst
  rcases hbefore.cases with hasserted | hdraining | hlive'
  · have hrst' := (draining_step rom hasserted hrst).rst
    rw [hlive.1] at hrst'
    exact absurd hrst' (by decide)
  · rw [(step_draining rom hdraining hrst).2.1]
    rfl
  · have hlow : strobeBit (run (step rom) s₀ past n).latch.axi3ffR = false := by
      rw [step_live rom hlive' hrst] at hprev
      exact hprev
    have hsame : (step rom (past n) (run (step rom) s₀ past n)).latch.axiFromPsR =
        (run (step rom) s₀ past n).latch.axiFromPsR := by
      rw [step_live rom hlive' hrst]
      change (run (step rom) s₀ past n).latch.nextAxiFromPsW = _
      rw [Latch.nextAxiFromPsW, Latch.strobeEdgeW, PosedgeDetector.q, hlow]
      rfl
    rw [hsame, step_config rom hlive' hrst, exec_exec]

/-- On the clock edge that raises the interrupt of the command {lit}`w`, `axi_to_ps_o` takes the
callback of {lit}`w` on the registers that have executed it, for some readings of the converters
and of the signal path. -/
def CallbackReady (rom : Nco.Rom) (i : Input) (s : State) (w : BitVec 32) : Prop :=
  ∃ o, axiToPsO (step rom i s) = callbackOf w (exec w (step rom i s).config) o

/-- The interrupt of a latched command is raised outside reset, and only there. -/
theorem irqO_iff {rom : Nco.Rom} {s : State} {i : Input} {w : BitVec 32} (hs : WasReset rom s)
    (hload : load s.latch = some w) (hw : interrupting w = true) :
    irqO (step rom i s) = true ↔ Live s ∧ i.rstI = false := by
  constructor
  · intro hirq
    have hrst : i.rstI = false := by
      rw [Bool.eq_false_iff]
      intro hrst
      simp [irqO, step, posedge, negedge, hrst, nextIrqR, asyncReset, ResetSync.asserted] at hirq
    refine ⟨?_, hrst⟩
    rcases hs.cases with hasserted | hdraining | hlive
    · simp [irqO, step, posedge, negedge, hrst, nextIrqR, hasserted.1, ResetSync.asserted] at hirq
    · simp [irqO, step, posedge, negedge, hrst, nextIrqR, hdraining.rst] at hirq
    · exact hlive
  · rintro ⟨hlive, hrst⟩
    have hedge : s.latch.strobeEdgeW = true ∧ s.latch.axi3ffR = w := by
      rw [load] at hload
      split_ifs at hload with hedge
      exact ⟨hedge, Option.some.inj hload⟩
    simp only [interrupting, Bool.and_eq_true, bne_iff_ne] at hw
    rw [irqO, step_live rom hlive hrst]
    simp [nextIrqR, cmdIncomingW, hedge, hw]

/-- The callback of a command comes with its interrupt if and only if the command repeats the one
before it. -/
theorem callbackReady_iff {rom : Nco.Rom} {s : State} {i : Input} {w : BitVec 32}
    (hs : WasReset rom s) (hload : load s.latch = some w) (hw : interrupting w = true) :
    (irqO (step rom i s) = true → CallbackReady rom i s w) ↔
      (Live s → i.rstI = false → Repeats s.config (viewOf s.latch.axiFromPsR) (viewOf w)) := by
  rw [irqO_iff hs hload hw, and_imp]
  refine imp_congr_right fun hlive => imp_congr_right fun hrst => ?_
  have hconfig : (step rom i s).config = s.config :=
    (step_config rom hlive hrst).trans (executed_of_wasReset hs hlive hload)
  have hposted : axiToPsO (step rom i s) =
      callbackOf s.latch.axiFromPsR s.config (observed i s) := by
    have hsame := hconfig
    rw [step_live rom hlive hrst] at hsame
    rw [axiToPsO, step_live rom hlive hrst]
    exact nextCallbackW_config _ _ rfl (congrArg Config.dac1DatR hsame)
      (congrArg Config.dac2DatR hsame)
  rw [CallbackReady, hposted, hconfig]
  exact callbackOf_exec_iff (observed i s)

/-! ## Runs -/

/-- Every state of a run that started after a reset comes after a reset. -/
theorem wasReset_run {rom : Nco.Rom} {s : State} (hs : WasReset rom s) (ins : ℕ → Input) (n : ℕ) :
    WasReset rom (run (step rom) s ins n) := by
  rcases hs with ⟨s₀, past, m, ⟨j, hjm, hj⟩, rfl⟩
  refine ⟨s₀, splice m past ins, m + n, ⟨j, by omega, ?_⟩, ?_⟩
  · rw [splice_of_lt past ins hjm, hj]
  · rw [run_splice_add]

/-- In a run, every interrupt of a command comes with its callback. -/
def ReadyWithInterrupt (rom : Nco.Rom) (s : State) (ins : ℕ → Input) : Prop :=
  ∀ n w, load (run (step rom) s ins n).latch = some w → interrupting w = true →
    irqO (run (step rom) s ins (n + 1)) = true →
      CallbackReady rom (ins n) (run (step rom) s ins n) w

/-- In a run, every command that interrupts repeats the one before it. -/
def OnlyRepeats (rom : Nco.Rom) (s : State) (ins : ℕ → Input) : Prop :=
  ∀ n w, load (run (step rom) s ins n).latch = some w → interrupting w = true →
    Live (run (step rom) s ins n) → (ins n).rstI = false →
      Repeats (run (step rom) s ins n).config (viewOf (run (step rom) s ins n).latch.axiFromPsR)
        (viewOf w)

/-- The interrupts of a run never precede their callbacks if and only if the run only repeats
commands. -/
theorem readyWithInterrupt_iff {rom : Nco.Rom} {s : State} (hs : WasReset rom s)
    (ins : ℕ → Input) : ReadyWithInterrupt rom s ins ↔ OnlyRepeats rom s ins :=
  forall_congr' fun n => forall_congr' fun _ => imp_congr_right fun hload =>
    imp_congr_right fun hw => callbackReady_iff (wasReset_run hs ins n) hload hw

/-- The exact condition, for the LED command after reset. -/
theorem readyWithInterrupt_iff_led :
    ∃ p, ReadyWithInterrupt (fun _ => 0#16) (afterReset p) ledBus ↔
      OnlyRepeats (fun _ => 0#16) (afterReset p) ledBus := by
  rcases exists_reachable_afterReset (fun _ => 0#16) with ⟨p, hp⟩
  exact ⟨p, readyWithInterrupt_iff (wasReset_of_reachable hp) ledBus⟩

/-- After reset, the interrupt of the LED command comes with the callback of no command. -/
theorem led_interrupt_early :
    ∃ p, WasReset (fun _ => 0#16) (afterReset p) ∧
      load (run (step fun _ => 0#16) (afterReset p) ledBus 4).latch =
        some (PdhCmdT.strobe.set 1#1 ledCmd) ∧
      irqO (run (step fun _ => 0#16) (afterReset p) ledBus 5) = true ∧
      axiToPsO (run (step fun _ => 0#16) (afterReset p) ledBus 5) = 0#32 ∧
      (∀ c o, callbackOf (PdhCmdT.strobe.set 1#1 ledCmd)
        (exec (PdhCmdT.strobe.set 1#1 ledCmd) c) o = 0x100000AA#32) ∧
      ¬ReadyWithInterrupt (fun _ => 0#16) (afterReset p) ledBus := by
  rcases exists_reachable_afterReset (fun _ => 0#16) with ⟨p, hp⟩
  have hs := wasReset_of_reachable hp
  have hrst : ∀ n, (ledBus n).rstI = false := ledBus_sends.rstI (by decide)
  have hlive := run_live (fun _ => 0#16) (live_afterReset p) hrst 4
  have hload : load (run (step fun _ => 0#16) (afterReset p) ledBus 4).latch =
      some (PdhCmdT.strobe.set 1#1 ledCmd) :=
    (ledBus_sends.load_eq_some _ hs (by decide) (by decide)).mpr rfl
  have hirq : irqO (run (step fun _ => 0#16) (afterReset p) ledBus 5) = true :=
    (irqO_iff (wasReset_run hs ledBus 4) hload (by decide)).mpr ⟨hlive, hrst 4⟩
  have hprevious : (run (step fun _ => 0#16) (afterReset p) ledBus 4).latch.axiFromPsR = 0#32 := by
    have hloads := loads_run (fun _ => 0#16) p hrst 1
    rw [axiFromPsR_run _ p hrst, hloads]
    decide
  have hposted : axiToPsO (run (step fun _ => 0#16) (afterReset p) ledBus 5) = 0#32 := by
    have hidle : cmdW 0#32 = .idle := by decide
    rw [axiToPsO, run_succ, step_live _ hlive (hrst 4), hprevious]
    simp only [nextCallbackW, hidle]
  have hled : ∀ c o, callbackOf (PdhCmdT.strobe.set 1#1 ledCmd)
      (exec (PdhCmdT.strobe.set 1#1 ledCmd) c) o = 0x100000AA#32 := by
    intro c o
    have hcmd : cmdW (PdhCmdT.strobe.set 1#1 ledCmd) = .setLed := by decide
    simp only [callbackOf, exec, hcmd]
    rw [← next_eq_execRegs]
    exact nextCallbackW_ledCmd c.regs _ o
  refine ⟨p, hs, hload, hirq, hposted, hled, fun hready => ?_⟩
  rcases hready 4 _ hload (by decide) hirq with ⟨o, ho⟩
  rw [hled] at ho
  exact absurd (hposted.symm.trans ho) (by decide)

end Requests
end PoundDreverHall
