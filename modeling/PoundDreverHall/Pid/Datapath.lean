import PoundDreverHall.Clocked.Run
import PoundDreverHall.FixedPoint.Saturation
import PoundDreverHall.Rtl.PidCore

/-!
# PID controller - the datapath over the integers

The wires of the controller stand for integers.  This file says for which, in
terms of the integers in the registers and on the ports.  Only three wires are not
the integers they look like: the error and its distance from the average wrap at 16
bits, and the output wraps at 20 bits before it is clamped.

Main results:

- Theorem {lit}`toInt_errorW` and theorem {lit}`toInt_sumError1W`: the error and the
  integrator candidate.
- Theorem {lit}`toInt_pErrorW`, theorem {lit}`toInt_dErrorW` and theorem
  {lit}`toInt_iErrorW`: the products.
- Theorem {lit}`toInt_totalErrorWideW` and theorem {lit}`toInt_gainedWideW`: the
  output stage up to its last addition.
-/

namespace PoundDreverHall
namespace PidCore

open Clocked FixedPoint

/-! ## Saturation functions -/

theorem toInt_sat20From26 (x : BitVec 26) : (sat20From26 x).toInt = saturate 20 x.toInt :=
  toInt_saturate (by decide) (by decide) (by decide) (by decide) (by decide) (by decide) x

/-- The clamp of an unsigned word. -/
theorem toNat_satUnsignedFromSigned (x : BitVec 20) :
    ((satUnsignedFromSigned x).toNat : ℤ) = clamp 0 16383 x.toInt := by
  unfold satUnsignedFromSigned
  rw [BitVec.slt_eq_decide, BitVec.msb_eq_toInt]
  have hmax : (0x03FFF#20).toInt = 16383 := by decide
  rw [hmax]
  by_cases habove : 16383 < x.toInt
  · rw [if_pos (decide_eq_true habove), clamp_of_ge (by norm_num) habove.le]
    rfl
  · rw [if_neg (by simpa using habove)]
    by_cases hneg : x.toInt < 0
    · rw [if_pos (decide_eq_true hneg), clamp_of_le hneg.le]
      rfl
    · rw [if_neg (by simpa using hneg), clamp_of_mem (by omega) (by omega), BitVec.toNat_setWidth]
      have hx := BitVec.toInt_eq_toNat_cond x
      have hlt := x.isLt
      split_ifs at hx <;> omega

/-- The threshold is a power of two. -/
theorem toNat_satThresholdW (s : State) : (satThresholdW s).toNat = 2 ^ s.satwidthR.toNat := by
  have hpow : 2 ^ s.satwidthR.toNat < 2 ^ 32 :=
    Nat.pow_lt_pow_right (by omega) s.satwidthR.isLt
  rw [satThresholdW, BitVec.shiftLeft_eq', BitVec.toNat_shiftLeft, Nat.shiftLeft_eq]
  simpa using hpow

/-- The clamp of the integrator is symmetric. -/
theorem toInt_applySatwidthTruncation (x : BitVec 33) {threshold : BitVec 32} {k : ℕ}
    (hk : k < 32) (ht : threshold.toNat = 2 ^ k) :
    (applySatwidthTruncation x threshold).toInt = clamp (-(2 ^ k - 1)) (2 ^ k - 1) x.toInt := by
  have hpos : 0 < 2 ^ k := by positivity
  have hmax : 2 ^ k ≤ 2 ^ 31 := Nat.pow_le_pow_right (by omega) (by omega)
  have hcast : ((2 ^ k : ℕ) : ℤ) = 2 ^ k := by push_cast; rfl
  have hneg : (-threshold).toNat = 2 ^ 32 - 2 ^ k := by
    rw [BitVec.toNat_neg, ht, Nat.mod_eq_of_lt (by omega)]
  have hupper : (0#1 ++ threshold).toInt = 2 ^ k := by
    rw [BitVec.toInt_append, ht]
    simp
  have hlower : (1#1 ++ -threshold).toInt = -2 ^ k := by
    rw [BitVec.toInt_append, hneg]
    simp
    omega
  have hsub : (threshold - 1#32).toInt = 2 ^ k - 1 := by
    rw [BitVec.toInt_eq_toNat_of_lt] <;> rw [BitVec.toNat_sub, ht] <;> simp <;> omega
  have hadd : (-threshold + 1#32).toInt = -(2 ^ k - 1) := by
    have hflip : -threshold + 1#32 = -(threshold - 1#32) := by
      rw [BitVec.neg_sub]
    rw [hflip, BitVec.toInt_neg, hsub, bmod_of_fits (by decide)]
    constructor <;> norm_num <;> omega
  unfold applySatwidthTruncation
  rw [BitVec.sle_eq_decide, BitVec.sle_eq_decide, hupper, hlower]
  by_cases habove : 2 ^ k ≤ x.toInt
  · rw [if_pos (decide_eq_true habove), hsub, clamp_of_ge (by omega) (by omega)]
  · rw [if_neg (by simpa using habove)]
    by_cases hbelow : x.toInt ≤ -2 ^ k
    · rw [if_pos (decide_eq_true hbelow), hadd, clamp_of_le (by omega)]
    · rw [if_neg (by simpa using hbelow), clamp_of_mem (by omega) (by omega),
        toInt_setWidth (by decide), bmod_of_fits (by decide)]
      constructor <;> norm_num <;> omega

/-! ## The error -/

section Wires

variable (i : Input) (s : State)

/-- The error is the difference of the port and the setpoint, wrapped at 16 bits. -/
theorem toInt_errorW :
    (errorW i s).toInt = (i.datI.toInt - s.spR.toInt).bmod (2 ^ 16) := by
  rw [errorW, BitVec.toInt_sub, BitVec.toInt_signExtend_of_le (by decide)]

/-! ## The integrator -/

/-- One bit more is enough for the sum. -/
theorem toInt_sumErrorWideW :
    (sumErrorWideW i s).toInt = s.sumErrorR.toInt + (errorGainedW i s).toInt :=
  toInt_add_signExtend _ _ (by decide) (by decide) (by decide)

/-- The candidate for the integrator is the exact sum, clamped. -/
theorem toInt_sumError1W :
    (sumError1W i s).toInt =
      clamp (-(2 ^ s.satwidthR.toNat - 1)) (2 ^ s.satwidthR.toNat - 1)
        (s.sumErrorR.toInt + (errorGainedW i s).toInt) := by
  rw [sumError1W, toInt_applySatwidthTruncation _ s.satwidthR.isLt (toNat_satThresholdW s),
    toInt_sumErrorWideW]

/-! ## Products -/

/-- The proportional product is taken at the second tick and held in between. -/
theorem toInt_pErrorW :
    (pErrorW s).toInt =
      if s.tick2R then s.kpR.toInt * s.errorPipe1R.toInt else s.pErrorR.toInt := by
  rw [pErrorW]
  split_ifs
  · exact toInt_mul_signExtend _ _ (by decide) (by decide) (by decide)
  · rfl

/-- So is the derivative product, of the distance from the average. -/
theorem toInt_dErrorW :
    (dErrorW i s).toInt =
      if s.tick2R then s.kdR.toInt * (errMinusEmaW i s).toInt else s.dErrorR.toInt := by
  rw [dErrorW]
  split_ifs
  · exact toInt_mul_signExtend _ _ (by decide) (by decide) (by decide)
  · rfl

/-- So is the integral product, of the integrator. -/
theorem toInt_iErrorW :
    (iErrorW s).toInt =
      if s.tick2R then s.kiR.toInt * s.sumErrorR.toInt else s.iErrorR.toInt := by
  rw [iErrorW]
  split_ifs
  · exact toInt_mul_signExtend _ _ (by decide) (by decide) (by decide)
  · rfl

/-! ## The terms -/

/-- A term is cut out of its product. -/
theorem toInt_pErrorShiftedW :
    (pErrorShiftedW s).toInt = (s.pErrorR.toInt / 2 ^ 15).bmod (2 ^ 16) :=
  toInt_extractLsb' (by decide) _

/-- So is the derivative term. -/
theorem toInt_dErrorShiftedW :
    (dErrorShiftedW s).toInt = (s.dErrorR.toInt / 2 ^ 15).bmod (2 ^ 16) :=
  toInt_extractLsb' (by decide) _

/-- The integral term is shifted by the width of the integrator before it is cut. -/
theorem toInt_iErrorShiftedW :
    (iErrorShiftedW s).toInt = (s.iErrorR.toInt / 2 ^ s.satwidthR.toNat).bmod (2 ^ 16) := by
  rw [iErrorShiftedW, toInt_setWidth (by decide), toInt_sshiftRight]

/-! ## The output stage -/

/-- The sum of the three terms. -/
def totalError : ℤ :=
  (perrTap s).toInt + (derrTap s).toInt + (ierrTap s).toInt

/-- Twenty bits are enough for the three terms. -/
theorem toInt_totalErrorWideW : (totalErrorWideW s).toInt = totalError s := by
  have hp : Fits 18 (pErrorShiftedW s).toInt := (fits_toInt _).mono (by decide)
  have hd : Fits 18 (dErrorShiftedW s).toInt := (fits_toInt _).mono (by decide)
  have hi : Fits 19 (iErrorShiftedW s).toInt := (fits_toInt _).mono (by decide)
  have hsum := (hp.add (by decide) hd).add (by decide) hi
  have hpd : ((pErrorShiftedW s).signExtend 20 + (dErrorShiftedW s).signExtend 20).toInt =
      (pErrorShiftedW s).toInt + (dErrorShiftedW s).toInt :=
    toInt_add_signExtend _ _ (by decide) (by decide) (by decide)
  have hi' : ((iErrorShiftedW s).signExtend 20).toInt = (iErrorShiftedW s).toInt :=
    BitVec.toInt_signExtend_of_le (by decide)
  rw [totalErrorWideW, toInt_add (by decide), hpd, hi']
  · rfl
  · rw [hpd, hi']
    exact hsum

/-- The gain has ten fractional bits. -/
theorem toInt_gainShiftedW :
    (gainShiftedW s).toInt = totalError s * s.gainR.toInt / 2 ^ 10 := by
  have hprod : (gainProdW s).toInt = (totalErrorWideW s).toInt * s.gainR.toInt :=
    toInt_mul_signExtend _ _ (by decide) (by decide) (by decide)
  rw [gainShiftedW, toInt_extractLsb'_top (k := 10) (v := 26) (by decide) (gainProdW s), hprod,
    toInt_totalErrorWideW]

/-- The gained total is saturated to twenty bits. -/
theorem toInt_gainedWideW :
    (gainedWideW s).toInt = saturate 20 (totalError s * s.gainR.toInt / 2 ^ 10) := by
  rw [gainedWideW, toInt_sat20From26, toInt_gainShiftedW]

end Wires

/-! ## Clocked behaviour -/

/-- The states that follow a reset. -/
def Reachable (s : State) : Prop :=
  ∃ (ins : ℕ → Input) (n : ℕ), s = run step resetState ins n

/-- The controller is enabled and not reset. -/
def Input.active (i : Input) : Bool := !i.rst && i.enableI

theorem active_iff {i : Input} : i.active = true ↔ i.rst = false ∧ i.enableI = true := by
  simp [Input.active]

/-- Everything but the settings has its reset value. -/
structure Cleared (s : State) : Prop where
  cntR : s.cntR = 0#14
  tick1R : s.tick1R = false
  tick2R : s.tick2R = false
  errorPipe1R : s.errorPipe1R = 0#16
  sumErrorR : s.sumErrorR = 0#32
  ykR : s.ykR = 0#16
  pErrorR : s.pErrorR = 0#32
  dErrorR : s.dErrorR = 0#32
  iErrorR : s.iErrorR = 0#48

theorem cleared_resetState : Cleared resetState :=
  ⟨rfl, rfl, rfl, rfl, rfl, rfl, rfl, rfl, rfl⟩

section Step

variable {i : Input} {s : State}

/-- A running controller. -/
theorem step_active (h : i.active = true) :
    step i s =
      { kpR := i.kpI
        kdR := i.kdI
        kiR := i.kiI
        gainR := i.gainI
        egainR := i.egainI
        biasR := i.biasI
        spR := i.spI
        alphaR := i.alphaI
        satwidthR := nextSatwidthW i
        decimateR := if i.decimateI < 1#14 then 1#14 else i.decimateI
        cntR := nextCntW s
        tick1R := tick1W i s
        tick2R := s.tick1R
        errorPipe1R := errorGainedW i s
        sumErrorR := sumError2W i s
        ykR := ykW i s
        pErrorR := pErrorW s
        dErrorR := dErrorW i s
        iErrorR := iErrorW s } := by
  obtain ⟨hrst, hen⟩ := active_iff.mp h
  rw [step, if_neg (by simp [hrst]), if_pos hen]

/-- A controller that is reset or disabled. -/
theorem cleared_step (h : i.active = false) : Cleared (step i s) := by
  unfold step
  by_cases hrst : i.rst = true
  · rw [if_pos hrst]
    exact cleared_resetState
  · have hen : ¬i.enableI = true := by
      intro hen
      rw [active_iff.mpr ⟨eq_false_of_ne_true hrst, hen⟩] at h
      cases h
    rw [if_neg hrst, if_neg hen]
    exact ⟨rfl, rfl, rfl, rfl, rfl, rfl, rfl, rfl, rfl⟩

end Step

end PidCore
end PoundDreverHall
