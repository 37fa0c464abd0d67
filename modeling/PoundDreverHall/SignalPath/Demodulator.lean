import PoundDreverHall.FixedPoint.Saturation
import PoundDreverHall.SignalPath.FrontEnd

/-!
# Signal path - oscillator and demodulator

The demodulator multiplies two 16-bit fractions without saturation, which goes wrong
only if both are the lowest one.  The reference always comes from the oscillator.  Its
table holds magnitudes, and a magnitude with a sign, inverted or not, is never the
lowest fraction.

Main results:

- Theorem {lit}`Nco.State.InRange.step`: the oscillator stays in range.
- Theorem {lit}`oscInRange_of_wasReset`: so does the reference, in every state after a
  reset.
- Theorem {lit}`frontEnd_exact`: the products of the front end are exact.
-/

namespace PoundDreverHall

open FixedPoint

/-! ## Oscillator -/

namespace Nco

/-- An entry of the sine table. -/
def IsMagnitude (x : BitVec 16) : Prop := x.toNat ≤ 0x7FFF

/-- A magnitude with a sign. -/
def IsSine (x : BitVec 16) : Prop := |x.toInt| ≤ 0x7FFF

theorem isSine_zero : IsSine 0#16 := by
  norm_num [IsSine]

/-- A magnitude is a value of the sine. -/
theorem isSine_of_isMagnitude {x : BitVec 16} (h : IsMagnitude x) : IsSine x := by
  have hint : x.toInt = x.toNat := BitVec.toInt_eq_toNat_of_lt (by rw [IsMagnitude] at h; omega)
  rw [IsSine, hint, abs_of_nonneg (Int.natCast_nonneg _)]
  exact_mod_cast h

/-- So is its negative. -/
theorem IsSine.neg {x : BitVec 16} (h : IsSine x) : IsSine (-x) := by
  obtain ⟨hlow, hhigh⟩ := abs_le.mp h
  have hfits : Fits 16 (-x.toInt) := by
    constructor <;> norm_num at hlow hhigh ⊢ <;> linarith
  rw [IsSine, BitVec.toInt_neg, bmod_of_fits (by norm_num) hfits, abs_neg]
  exact h

/-- So is what the oscillator makes of a word of the memory. -/
theorem isSine_romSigned (phi : BitVec 14) {lookup : BitVec 16} (h : IsMagnitude lookup) :
    IsSine (romSigned phi lookup) := by
  rw [romSigned]
  split_ifs
  · exact isSine_of_isMagnitude h
  · exact (isSine_of_isMagnitude h).neg

/-- The outputs of the table and of the oscillator are in range. -/
structure State.InRange (s : State) : Prop where
  dout1 : IsMagnitude s.dout1
  dout2 : IsMagnitude s.dout2
  rom1SignedR : IsSine s.rom1SignedR
  rom2SignedR : IsSine s.rom2SignedR

variable {rom : Rom} (hrom : ∀ addr, IsMagnitude (rom addr)) {s : State} {i : Input}

include hrom

/-- One edge under reset, whatever came before. -/
theorem inRange_step_reset (hi : i.rstI = true) : (step rom i s).InRange := by
  constructor <;> simp [step, hi, cleared, hrom, isSine_zero]

/-- A clock edge keeps the outputs of the oscillator in range. -/
theorem State.InRange.step (h : s.InRange) : (Nco.step rom i s).InRange := by
  have hdout1 : IsMagnitude (Nco.step rom i s).dout1 := hrom s.addr1R
  have hdout2 : IsMagnitude (Nco.step rom i s).dout2 := hrom s.addr2R
  have hrom2 : IsSine (rom2SignedW s) := by
    rw [rom2SignedW]
    split_ifs
    · exact (isSine_romSigned _ h.dout2).neg
    · exact isSine_romSigned _ h.dout2
  refine ⟨hdout1, hdout2, ?_, ?_⟩
  · simp only [Nco.step]
    split_ifs
    · exact isSine_zero
    · exact isSine_romSigned _ h.dout1
    · exact isSine_zero
  · simp only [Nco.step]
    split_ifs
    · exact isSine_zero
    · exact hrom2
    · exact isSine_zero

end Nco

namespace PdhCore

open Clocked Nco

/-! ## Reference -/

section Step

variable (rom : Nco.Rom) (i : Input) (s : State)

/-- The edge is one under reset. -/
def State.resets (s : State) (i : Input) : Bool := i.rstI || s.rst.rstSyncR

/-- The signal path at a clock edge, in reset or out of it. -/
theorem step_path_of_resets :
    ∃ d, (step rom i s).path = s.path.step rom (s.resets i) i s.regs d := by
  cases hrst : i.rstI with
  | false =>
      refine ⟨(negedge i s).dac, ?_⟩
      simp [step, posedge, negedge, hrst, State.resets]
  | true =>
      refine ⟨(negedge i (asyncReset s)).dac, ?_⟩
      simp [step, posedge, negedge, asyncReset, hrst, ResetSync.asserted, State.resets]

theorem step_regs_of_resets (h : s.resets i = true) : (step rom i s).regs = Regs.reset := by
  cases hrst : i.rstI with
  | false =>
      have hsync : s.rst.rstSyncR = true := by
        simpa [State.resets, hrst] using h
      simp [step, posedge, negedge, hrst, hsync]
  | true => simp [step, posedge, negedge, asyncReset, hrst, ResetSync.asserted]

end Step

/-- The oscillator and its output registers are in range.  The second register has no
reset, and counts only once it is selected as the reference. -/
structure OscInRange (s : State) : Prop where
  uNco : s.path.uNco.InRange
  ncoOut1R : IsSine s.path.ncoOut1R
  ncoOut2R : s.regs.demodRefSelR = true → IsSine s.path.ncoOut2R

section Range

variable {rom : Nco.Rom} (hrom : ∀ addr, IsMagnitude (rom addr)) {i : Input} {s : State}

include hrom

/-- A reset clears the outputs of the oscillator. -/
theorem oscInRange_step_reset (h : s.resets i = true) : OscInRange (step rom i s) := by
  obtain ⟨d, hpath⟩ := step_path_of_resets rom i s
  rw [h] at hpath
  have hregs := step_regs_of_resets rom i s h
  refine ⟨?_, ?_, ?_⟩
  · rw [hpath]
    exact inRange_step_reset hrom rfl
  · simp [hpath, Path.step, isSine_zero]
  · simp [hregs, Regs.reset]

/-- A clock edge of the core keeps them in range. -/
theorem OscInRange.step (h : OscInRange s) : OscInRange (PdhCore.step rom i s) := by
  cases hrst : s.resets i with
  | true => exact oscInRange_step_reset hrom hrst
  | false =>
      obtain ⟨d, hpath⟩ := step_path_of_resets rom i s
      rw [hrst] at hpath
      refine ⟨?_, ?_, fun _ => ?_⟩
      · rw [hpath]
        exact h.uNco.step hrom
      · rw [hpath]
        exact h.uNco.rom1SignedR
      · rw [hpath]
        exact h.uNco.rom2SignedR

/-- The oscillator is in range in every state after a reset. -/
theorem oscInRange_of_wasReset (h : WasReset rom s) : OscInRange s := by
  rcases h with ⟨s₀, past, m, ⟨j, hjm, hj⟩, rfl⟩
  induction m, hjm using Nat.le_induction with
  | base =>
      rw [Nat.succ_eq_add_one, run_succ]
      exact oscInRange_step_reset hrom (by simp [State.resets, hj])
  | succ n _ ih =>
      rw [run_succ]
      exact ih.step hrom

end Range

/-- So the reference is in range, whichever it is. -/
theorem OscInRange.demodRefW {s : State} (h : OscInRange s) :
    IsSine (Path.demodRefW s.regs s.path) := by
  rw [Path.demodRefW]
  split_ifs with hsel
  · exact h.ncoOut2R hsel
  · exact h.ncoOut1R

/-! ## Products -/

/-- The product of a sine and any fraction, rounded down. -/
theorem toInt_iqDemod {ref : BitVec 16} (h : IsSine ref) (x : BitVec 16) :
    (IqDemod.step false ref x).toInt = ref.toInt * x.toInt / 2 ^ 15 := by
  have hlow : ref.toInt ≠ -2 ^ 15 := by
    have hle := (abs_le.mp h).1
    norm_num at hle ⊢
    omega
  have hfits : Fits 16 (ref.toInt * x.toInt / 2 ^ 15) :=
    (fits_mul_div_iff (n := 15) (fits_toInt ref) (fits_toInt x)).mpr fun hboth => hlow hboth.1
  rw [IqDemod.step, if_neg Bool.false_ne_true, toInt_extractLsb' (by norm_num),
    toInt_mul_signExtend ref x (by norm_num) (by norm_num) (by norm_num),
    bmod_of_fits (by norm_num) hfits]

/-- In this state the samples, the rotated samples and the demodulated product are those of
integer arithmetic, rounded down.  The samples and the demodulator are registers, so their
values appear with the next edge. -/
structure FrontEndExact (rom : Nco.Rom) (s : State) : Prop where
  samples : ∀ i, s.resets i = false →
    (step rom i s).path.adcDatA16sR.toInt = 8192 - i.adcDatAI.toNat ∧
      (step rom i s).path.adcDatB16sR.toInt = 8192 - i.adcDatBI.toNat
  iFeed : (Path.iFeedW s.regs s.path).toInt =
    (s.regs.rotCosThetaR.toInt * s.path.adcDatA16sR.toInt -
      s.regs.rotSinThetaR.toInt * s.path.adcDatB16sR.toInt) / 2 ^ 15
  qFeed : (Path.qFeedW s.regs s.path).toInt =
    (s.regs.rotSinThetaR.toInt * s.path.adcDatA16sR.toInt +
      s.regs.rotCosThetaR.toInt * s.path.adcDatB16sR.toInt) / 2 ^ 15
  rotated : ∀ i, s.resets i = false →
    (Path.iFeedW (step rom i s).regs (step rom i s).path).toInt =
        ((step rom i s).regs.rotCosThetaR.toInt * (8192 - i.adcDatAI.toNat) -
          (step rom i s).regs.rotSinThetaR.toInt * (8192 - i.adcDatBI.toNat)) / 2 ^ 15 ∧
      (Path.qFeedW (step rom i s).regs (step rom i s).path).toInt =
        ((step rom i s).regs.rotSinThetaR.toInt * (8192 - i.adcDatAI.toNat) +
          (step rom i s).regs.rotCosThetaR.toInt * (8192 - i.adcDatBI.toNat)) / 2 ^ 15
  demod : ∀ i, s.resets i = false →
    (step rom i s).path.demodOut.toInt =
      (Path.demodRefW s.regs s.path).toInt * (Path.demodInW s.regs s.path).toInt / 2 ^ 15

/-- The samples that an edge takes over. -/
theorem samples_step (rom : Nco.Rom) {i : Input} {s : State} (h : s.resets i = false) :
    (step rom i s).path.adcDatA16sR = Path.adc16sW i.adcDatAI ∧
      (step rom i s).path.adcDatB16sR = Path.adc16sW i.adcDatBI := by
  obtain ⟨d, hpath⟩ := step_path_of_resets rom i s
  rw [hpath, h]
  exact ⟨rfl, rfl⟩

/-- In every state after a reset the products of the front end are exact, if the sine table
holds magnitudes. -/
theorem frontEnd_exact {rom : Nco.Rom} (hrom : ∀ addr, (rom addr).toNat ≤ 0x7FFF) {s : State}
    (h : WasReset rom s) : FrontEndExact rom s := by
  have hpath := inRange_of_wasReset h
  have hosc := oscInRange_of_wasReset hrom h
  constructor
  · intro i hi
    obtain ⟨ha, hb⟩ := samples_step rom hi
    rw [ha, hb]
    exact ⟨Path.toInt_adc16sW _, Path.toInt_adc16sW _⟩
  · exact Path.toInt_iFeedW hpath.adcDatA16sR hpath.adcDatB16sR
  · exact Path.toInt_qFeedW hpath.adcDatA16sR hpath.adcDatB16sR
  · intro i hi
    obtain ⟨ha, hb⟩ := samples_step rom hi
    have hinA := ha ▸ isSample_adc16sW i.adcDatAI
    have hinB := hb ▸ isSample_adc16sW i.adcDatBI
    rw [Path.toInt_iFeedW hinA hinB, Path.toInt_qFeedW hinA hinB, ha, hb, Path.toInt_adc16sW,
      Path.toInt_adc16sW]
    exact ⟨rfl, rfl⟩
  · intro i hi
    obtain ⟨d, hstep⟩ := step_path_of_resets rom i s
    rw [hstep, hi]
    exact toInt_iqDemod hosc.demodRefW _

/-- A word on the bus, and converters without a signal. -/
def quietInput (w : BitVec 32) : Input where
  axiFromPsI := w
  adcDatAI := 8192#14
  adcDatBI := 8192#14
  dmaReadyI := true
  bramReadyI := true

/-- The state after a clock period under reset. -/
def resetEntry (rom : Nco.Rom) : State :=
  step rom (quietInput 0x80000000#32) (afterReset Path.reset)

/-- Command words of a run: a reset, a rotation by half a turn, the stride of the oscillator, the
first converter as input of the demodulator, and the enable of the oscillator. -/
def turnedWords : List (BitVec 32) :=
  [0x80000000#32, 0#32, 0#32, 0x54008000#32, 0#32, 0x58000000#32, 0#32, 0x64000FFF#32, 0#32,
    0x6C000084#32, 0#32, 0x64040001#32]

/-- Every word is held for four clock periods, and the converters show their extremes. -/
def turnedInput (n : ℕ) : Input where
  axiFromPsI := turnedWords.getD (n / 4) 0x24040001#32
  adcDatAI := 0#14
  adcDatBI := 16383#14
  dmaReadyI := true
  bramReadyI := true

/-- The state after {lit}`n` clock periods of the run. -/
def turnedState (n : ℕ) : State :=
  run (step fun _ => 0x7FFF#16) (afterReset Path.reset) turnedInput n

/-- In the run, with the lowest coefficient, the products of the rotation and of the demodulator are
exact, and none of them is 0. -/
theorem frontEnd_exact_turned :
    FrontEndExact (fun _ => 0x7FFF#16) (turnedState 56) ∧
      (turnedState 56).regs.rotCosThetaR.toInt = -32768 ∧
      (turnedState 56).path.adcDatA16sR.toInt = 8192 ∧
      (turnedState 56).path.adcDatB16sR.toInt = -8191 ∧
      (Path.iFeedW (turnedState 56).regs (turnedState 56).path).toInt = -8192 ∧
      (Path.qFeedW (turnedState 56).regs (turnedState 56).path).toInt = 8191 ∧
      (turnedState 56).resets (turnedInput 56) = false ∧
      (turnedState 57).path.demodOut.toInt = -8192 := by
  have hreset : WasReset (fun _ => 0x7FFF#16) (turnedState 56) :=
    ⟨afterReset Path.reset, turnedInput, 56, ⟨0, by decide, rfl⟩, rfl⟩
  exact ⟨frontEnd_exact (fun _ => by decide) hreset, by decide +kernel⟩

end PdhCore
end PoundDreverHall
