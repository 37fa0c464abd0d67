import PoundDreverHall.Decoder.WriteSequence
import PoundDreverHall.FixedPoint.Word

/-!
# Signal path - the front end

The converters deliver 14-bit offset binary.  The front end centres and negates the
codes and rotates the pair of samples; both results stay small enough for every
rotation that can be committed.

Main results:

- Theorem {lit}`toInt_adc16sW`: the centred sample.
- Theorem {lit}`toInt_iFeedW` and theorem {lit}`toInt_qFeedW`: the rotated samples, with
  neither wrapping nor saturation.
- Theorem {lit}`inRange_of_wasReset`: the ranges in every state after a reset.
-/

namespace PoundDreverHall
namespace PdhCore

open Clocked FixedPoint

/-! ## Samples -/

/-- The centred sample is the distance of the code from the middle, negated. -/
theorem Path.toInt_adc16sW (adcDatI : BitVec 14) :
    (Path.adc16sW adcDatI).toInt = 8192 - adcDatI.toNat := by
  have hlt := adcDatI.isLt
  have hcode : (adcDatI.setWidth 15).toInt = adcDatI.toNat := by
    rw [BitVec.toInt_eq_toNat_of_lt] <;> rw [BitVec.toNat_setWidth] <;> omega
  have hmid : (8192#15).toInt = 8192 := by decide
  have hcentre : (adcDatI.setWidth 15 - 8192#15).toInt = adcDatI.toNat - 8192 := by
    rw [toInt_sub (by decide)] <;> rw [hcode, hmid]
    constructor <;> norm_num <;> omega
  rw [Path.adc16sW, BitVec.toInt_signExtend_of_le (by decide), BitVec.toInt_neg, hcentre,
    bmod_of_fits (by decide)]
  · ring
  · constructor <;> norm_num <;> omega

/-- The value of a converter sample. -/
def IsSample (x : BitVec 16) : Prop := -8191 ≤ x.toInt ∧ x.toInt ≤ 8192

theorem isSample_adc16sW (adcDatI : BitVec 14) : IsSample (Path.adc16sW adcDatI) := by
  have hlt := adcDatI.isLt
  rw [IsSample, Path.toInt_adc16sW]
  omega

/-! ## Rotation -/

/-- The product of a coefficient and a sample. -/
theorem abs_mul_sample_le (c : BitVec 16) {x : BitVec 16} (hx : IsSample x) :
    |c.toInt * x.toInt| ≤ 2 ^ 28 := by
  have hc := fits_toInt c
  have hcoeff : |c.toInt| ≤ 2 ^ 15 := abs_le.mpr ⟨hc.1, hc.2.le⟩
  have hsample : |x.toInt| ≤ 2 ^ 13 := abs_le.mpr ⟨by linarith [hx.1], hx.2⟩
  calc |c.toInt * x.toInt| = |c.toInt| * |x.toInt| := abs_mul _ _
    _ ≤ 2 ^ 15 * 2 ^ 13 := mul_le_mul hcoeff hsample (abs_nonneg _) (by positivity)
    _ = 2 ^ 28 := by norm_num

/-- A word far from its limits is not saturated. -/
theorem Path.rotSatW_eq {x : BitVec 33} (h : Fits 32 x.toInt) :
    Path.rotSatW x = x.setWidth 32 := by
  have htop : x.getLsbD 32 = x.getLsbD 31 := getLsbD_top (by decide) h
  rw [Path.rotSatW, htop, Bool.xor_self]
  rfl

/-- The slice of a rotated sample is its quotient, rounded down. -/
theorem toInt_rotated {x : BitVec 33} (h : |x.toInt| ≤ 2 ^ 29) :
    ((Path.rotSatW x).extractLsb' 15 16).toInt = x.toInt / 2 ^ 15 := by
  obtain ⟨hlow, hhigh⟩ := abs_le.mp h
  have hfits : Fits 32 x.toInt := by
    constructor <;> norm_num at hlow hhigh ⊢ <;> linarith
  rw [Path.rotSatW_eq hfits, toInt_extractLsb' (by decide), toInt_setWidth (by decide),
    bmod_of_fits (by decide) hfits, bmod_of_fits (by decide)]
  constructor <;> norm_num at hlow hhigh ⊢ <;> omega

section Rotation

variable {r : Regs} {p : Path} (ha : IsSample p.adcDatA16sR) (hb : IsSample p.adcDatB16sR)

include ha hb

theorem Path.toInt_iRotW :
    (Path.iRotW r p).toInt =
      r.rotCosThetaR.toInt * p.adcDatA16sR.toInt - r.rotSinThetaR.toInt * p.adcDatB16sR.toInt := by
  have hcos := abs_le.mp (abs_mul_sample_le r.rotCosThetaR ha)
  have hsin := abs_le.mp (abs_mul_sample_le r.rotSinThetaR hb)
  rw [Path.iRotW, toInt_sub (by decide)] <;>
    rw [toInt_mul_signExtend _ _ (by decide) (by decide) (by decide),
      toInt_mul_signExtend _ _ (by decide) (by decide) (by decide)]
  constructor <;> norm_num at hcos hsin ⊢ <;> linarith

theorem Path.toInt_qRotW :
    (Path.qRotW r p).toInt =
      r.rotSinThetaR.toInt * p.adcDatA16sR.toInt + r.rotCosThetaR.toInt * p.adcDatB16sR.toInt := by
  have hsin := abs_le.mp (abs_mul_sample_le r.rotSinThetaR ha)
  have hcos := abs_le.mp (abs_mul_sample_le r.rotCosThetaR hb)
  rw [Path.qRotW, toInt_add (by decide)] <;>
    rw [toInt_mul_signExtend _ _ (by decide) (by decide) (by decide),
      toInt_mul_signExtend _ _ (by decide) (by decide) (by decide)]
  constructor <;> norm_num at hcos hsin ⊢ <;> linarith

theorem Path.abs_iRotW_le : |(Path.iRotW r p).toInt| ≤ 2 ^ 29 := by
  have hcos := abs_le.mp (abs_mul_sample_le r.rotCosThetaR ha)
  have hsin := abs_le.mp (abs_mul_sample_le r.rotSinThetaR hb)
  rw [Path.toInt_iRotW ha hb, abs_le]
  constructor <;> linarith

theorem Path.abs_qRotW_le : |(Path.qRotW r p).toInt| ≤ 2 ^ 29 := by
  have hsin := abs_le.mp (abs_mul_sample_le r.rotSinThetaR ha)
  have hcos := abs_le.mp (abs_mul_sample_le r.rotCosThetaR hb)
  rw [Path.toInt_qRotW ha hb, abs_le]
  constructor <;> linarith

/-- The in-phase sample. -/
theorem Path.toInt_iFeedW :
    (Path.iFeedW r p).toInt =
      (r.rotCosThetaR.toInt * p.adcDatA16sR.toInt -
        r.rotSinThetaR.toInt * p.adcDatB16sR.toInt) / 2 ^ 15 := by
  rw [Path.iFeedW, toInt_rotated (Path.abs_iRotW_le ha hb), Path.toInt_iRotW ha hb]

/-- The quadrature sample. -/
theorem Path.toInt_qFeedW :
    (Path.qFeedW r p).toInt =
      (r.rotSinThetaR.toInt * p.adcDatA16sR.toInt +
        r.rotCosThetaR.toInt * p.adcDatB16sR.toInt) / 2 ^ 15 := by
  rw [Path.qFeedW, toInt_rotated (Path.abs_qRotW_le ha hb), Path.toInt_qRotW ha hb]

end Rotation

/-! ## Ranges -/

/-- The value of a rotated sample. -/
def IsRotated (x : BitVec 16) : Prop := |x.toInt| ≤ 2 ^ 14

theorem isRotated_extract {x : BitVec 33} (h : |x.toInt| ≤ 2 ^ 29) :
    IsRotated ((Path.rotSatW x).extractLsb' 15 16) := by
  obtain ⟨hlow, hhigh⟩ := abs_le.mp h
  rw [IsRotated, toInt_rotated h, abs_le]
  norm_num at hlow hhigh ⊢
  omega

/-- The registers of the front end are in range. -/
structure Path.InRange (p : Path) : Prop where
  adcDatA16sR : IsSample p.adcDatA16sR
  adcDatB16sR : IsSample p.adcDatB16sR
  iFeedR : IsRotated p.iFeedR
  qFeedR : IsRotated p.qFeedR

/-- One edge under reset. -/
theorem Path.inRange_step_reset (rom : Nco.Rom) (i : Input) (r : Regs) (d : DacRegs) (p : Path) :
    (Path.step rom true i r d p).InRange := by
  constructor <;> simp [Path.step, IsSample, IsRotated]

theorem Path.InRange.step {p : Path} (h : p.InRange) (rom : Nco.Rom) (rstSyncR : Bool) (i : Input)
    (r : Regs) (d : DacRegs) : (Path.step rom rstSyncR i r d p).InRange := by
  cases rstSyncR with
  | true => exact Path.inRange_step_reset rom i r d p
  | false =>
      exact
        { adcDatA16sR := isSample_adc16sW i.adcDatAI
          adcDatB16sR := isSample_adc16sW i.adcDatBI
          iFeedR := isRotated_extract (Path.abs_iRotW_le h.adcDatA16sR h.adcDatB16sR)
          qFeedR := isRotated_extract (Path.abs_qRotW_le h.adcDatA16sR h.adcDatB16sR) }

theorem path_step (rom : Nco.Rom) (i : Input) (s : State) :
    ∃ rstSyncR d, (step rom i s).path = s.path.step rom rstSyncR i s.regs d ∧
      (i.rstI = true → rstSyncR = true) := by
  cases hrst : i.rstI with
  | false =>
      refine ⟨s.rst.rstSyncR, (negedge i s).dac, ?_, by simp⟩
      simp [step, posedge, negedge, hrst]
  | true =>
      refine ⟨true, (negedge i (asyncReset s)).dac, ?_, by simp⟩
      simp [step, posedge, negedge, asyncReset, hrst, ResetSync.asserted]

/-- The front end is in range in every state after a reset. -/
theorem inRange_of_wasReset {rom : Nco.Rom} {s : State} (h : WasReset rom s) :
    s.path.InRange := by
  rcases h with ⟨s₀, past, m, ⟨j, hjm, hj⟩, rfl⟩
  induction m, hjm using Nat.le_induction with
  | base =>
      rcases path_step rom (past j) (run (step rom) s₀ past j) with ⟨rstSyncR, d, hpath, hreset⟩
      rw [Nat.succ_eq_add_one, run_succ, hpath, hreset hj]
      exact Path.inRange_step_reset rom (past j) _ d _
  | succ n _ ih =>
      rcases path_step rom (past n) (run (step rom) s₀ past n) with ⟨rstSyncR, d, hpath, -⟩
      rw [run_succ, hpath]
      exact ih.step rom rstSyncR (past n) _ d

end PdhCore
end PoundDreverHall
