import PoundDreverHall.Clocked.Run
import PoundDreverHall.FixedPoint.Tree
import PoundDreverHall.Rtl.Fir

/-!
# Signal path - the FIR filter

The taps form a shift register for the input, each tap registers one product, and the
products go through a tree of registered adders.  While the coefficients stay the same,
the output is a convolution with a fixed delay: one edge for the products and one for
each level of the tree.

Main results:

- Theorem {lit}`dinPipe_run`: tap {lit}`i` sees the input of {lit}`i` cycles ago.
- Theorem {lit}`stageW_run`: a register of the tree holds a node over the products.
- Theorem {lit}`doutO_run`: the output is the saturating sum of the products; theorem
  {lit}`neverSaturates`: the coefficients that need no saturation.
- Theorem {lit}`doutO_convolution`: both for the width of the design.
-/

namespace PoundDreverHall

open FixedPoint

/-! ## One bit too many -/

namespace FirTap

variable {dw : ℕ} (hdw : 0 < dw)

include hdw

theorem toInt_saturateProduct (x : BitVec (dw + 1)) :
    (saturateProduct x).toInt = saturate dw x.toInt := by
  have hsign : x.getLsbD dw = decide (x.toInt < 0) := by
    rw [← BitVec.msb_eq_toInt, BitVec.msb_eq_getLsbD_last]
    rfl
  have hpos : (0 : ℤ) < 2 ^ (dw - 1) := by positivity
  by_cases hfits : Fits dw x.toInt
  · have htop := (fits_iff_getLsbD_top hdw x).mp hfits
    rw [saturateProduct, htop, Bool.xor_self, if_neg Bool.false_ne_true,
      toInt_setWidth (Nat.le_succ dw), bmod_of_fits hdw hfits, saturate_of_fits hfits]
  · have htop := mt (fits_iff_getLsbD_top hdw x).mpr hfits
    rw [saturateProduct, if_pos (by simpa using htop), hsign]
    by_cases hneg : x.toInt < 0
    · have hlow : x.toInt < -2 ^ (dw - 1) := by
        by_contra hge
        exact hfits ⟨not_lt.mp hge, by linarith⟩
      rw [if_pos (decide_eq_true hneg), saturate_of_lt hlow, BitVec.toInt_intMin_of_pos hdw]
    · have hhigh : 2 ^ (dw - 1) ≤ x.toInt := by
        by_contra hlt
        exact hfits ⟨by linarith, not_le.mp hlt⟩
      rw [if_neg (by simpa using hneg), saturate_of_ge hhigh, BitVec.toInt_intMax]

/-- A tap multiplies, drops the fraction and saturates. -/
theorem toInt_outW (dinI : BitVec dw) (s : State dw) :
    (outW dinI s).toInt = saturate dw (s.coeffR.toInt * dinI.toInt / 2 ^ (dw - 1)) := by
  have hprod : (prodWideW dinI s).toInt = s.coeffR.toInt * dinI.toInt :=
    toInt_mul_signExtend s.coeffR dinI hdw hdw (by omega)
  have hfits : Fits (dw + 1) ((prodWideW dinI s).toInt / 2 ^ (dw - 1)) := by
    have hwide : Fits (dw - 1 + (dw + 1)) (prodWideW dinI s).toInt :=
      (fits_toInt (prodWideW dinI s)).mono (by omega)
    exact hwide.div (Nat.succ_pos dw)
  rw [outW, toInt_saturateProduct hdw, toInt_extractLsb' (by omega),
    bmod_of_fits (Nat.succ_pos dw) hfits, hprod]

end FirTap

namespace Fir

open Clocked Finset

variable {aw dw : ℕ}

theorem toInt_satAdd (hdw : 0 < dw) (a b : BitVec dw) :
    (satAdd a b).toInt = satSum dw a.toInt b.toInt := by
  rw [satAdd, FirTap.toInt_saturateProduct hdw,
    toInt_add_signExtend a b hdw (Nat.lt_succ_self dw) (Nat.lt_succ_self dw), satSum]

/-! ## Taps and tree along a run -/

/-- The product of tap {lit}`i` for the input of cycle {lit}`t`, rounded down. -/
def product (c : BitVec aw → BitVec dw) (ins : ℕ → Input aw dw) (t i : ℕ) : ℤ :=
  (c (BitVec.ofNat aw i)).toInt * (ins (t - i)).dinI.toInt / 2 ^ (dw - 1)

section Run

variable {s : State aw dw} {ins : ℕ → Input aw dw} {c : BitVec aw → BitVec dw}
  (hrst : ∀ n, (ins n).rst = false)

include hrst

theorem taps_run_succ (n : ℕ) (k : BitVec aw) :
    (run step s ins (n + 1)).taps k =
      FirTap.step false (ins n).tapChainWriteEnI (dinPipe (ins n) (run step s ins n) k)
        ((run step s ins n).tapCoeffs k) ((run step s ins n).taps k) := by
  rw [run_succ, step, hrst n]

/-- Once the shift chain is filled that far, tap {lit}`k` sees the input of
{lit}`k` cycles ago. -/
theorem dinPipe_run {n : ℕ} {k : BitVec aw} (hk : k.toNat ≤ n) :
    dinPipe (ins n) (run step s ins n) k = (ins (n - k.toNat)).dinI := by
  induction n generalizing k with
  | zero =>
      have hzero : k = 0 := BitVec.eq_of_toNat_eq (by simpa using hk)
      simp [dinPipe, hzero]
  | succ n ih =>
      by_cases hzero : k = 0
      · simp [dinPipe, hzero]
      · have hpos : 0 < k.toNat := by
          apply Nat.pos_of_ne_zero
          exact fun h => hzero (BitVec.eq_of_toNat_eq (by simpa using h))
        -- the previous tap saw it one cycle earlier
        have hpred : (k - 1).toNat = k.toNat - 1 := by
          have hlt := k.isLt
          have hone : (1 : BitVec aw).toNat = 1 := Nat.mod_eq_of_lt (show 1 < 2 ^ aw by omega)
          rw [BitVec.toNat_sub_of_le (by rw [BitVec.le_def, hone]; omega), hone]
        rw [dinPipe, if_neg hzero, taps_run_succ hrst]
        show dinPipe (ins n) (run step s ins n) (k - 1) = _
        rw [ih (by omega), hpred, show n - (k.toNat - 1) = n + 1 - k.toNat by omega]

/-- A register of the tree takes the sum of the two registers before it. -/
theorem stageW_run_succ {n stage k : ℕ} (hstage : stage < aw) (hk : k < 2 ^ (aw - (stage + 1))) :
    stageW (run step s ins (n + 1)) (stage + 1) k =
      satAdd (stageW (run step s ins n) stage (2 * k))
        (stageW (run step s ins n) stage (2 * k + 1)) := by
  have hroom : k < 2 ^ aw >>> (stage + 1) := by
    rwa [Nat.shiftRight_eq_div_pow, Nat.pow_div hstage (by norm_num)]
  rw [run_succ]
  show (step (ins n) (run step s ins n)).stageData stage k = _
  simp [step, hrst n, hstage, hroom]

/-- The registers of the tree hold nodes over the tap outputs, each level one cycle
later than the one before. -/
theorem stageW_run_node (n : ℕ) {stage k : ℕ} (hstage : stage ≤ aw) (hk : k < 2 ^ (aw - stage)) :
    stageW (run step s ins (n + stage)) stage k =
      node satAdd (stageW (run step s ins n) 0) stage k := by
  induction stage generalizing k with
  | zero => rfl
  | succ stage ih =>
      have hpow : 2 ^ (aw - stage) = 2 * 2 ^ (aw - (stage + 1)) := by
        rw [← pow_succ', show aw - (stage + 1) + 1 = aw - stage by omega]
      rw [← Nat.add_assoc, stageW_run_succ hrst hstage hk, ih (by omega) (by omega),
        ih (by omega) (by omega), node_succ]

variable (hc : ∀ n, coeffs (run step s ins n) = c) (hdw : 0 < dw)

include hc hdw

/-- The output of a tap one cycle after its input. -/
theorem toInt_outR_run (n : ℕ) (k : BitVec aw) :
    ((run step s ins (n + 1)).taps k).outR.toInt =
      saturate dw ((c k).toInt *
        (dinPipe (ins n) (run step s ins n) k).toInt / 2 ^ (dw - 1)) := by
  have hcoeff : ((run step s ins n).taps k).coeffR = c k := congrFun (hc n) k
  rw [taps_run_succ hrst, FirTap.step, if_neg Bool.false_ne_true, FirTap.toInt_outW hdw, hcoeff]

/-- A register of the tree holds the saturating sum of the products below it. -/
theorem stageW_run {t stage k : ℕ} (hfill : 2 ^ aw ≤ t + 1) (hstage : stage ≤ aw)
    (hk : k < 2 ^ (aw - stage)) :
    (stageW (run step s ins (t + 1 + stage)) stage k).toInt =
      node (satSum dw) (fun i => saturate dw (product c ins t i)) stage k := by
  rw [stageW_run_node hrst (t + 1) hstage hk,
    map_node _ _ (satSum dw) BitVec.toInt (toInt_satAdd hdw)]
  apply node_congr
  intro j hj
  have hlt : 2 ^ stage * k + j < 2 ^ aw := by
    have hpow : 2 ^ aw = 2 ^ stage * 2 ^ (aw - stage) := by
      rw [← pow_add, show stage + (aw - stage) = aw by omega]
    have hle : 2 ^ stage * (k + 1) ≤ 2 ^ stage * 2 ^ (aw - stage) := Nat.mul_le_mul_left _ hk
    rw [Nat.mul_succ] at hle
    omega
  have hindex : (BitVec.ofNat aw (2 ^ stage * k + j)).toNat = 2 ^ stage * k + j := by
    rw [BitVec.toNat_ofNat, Nat.mod_eq_of_lt hlt]
  show ((run step s ins (t + 1)).taps (BitVec.ofNat aw (2 ^ stage * k + j))).outR.toInt = _
  rw [toInt_outR_run hrst hc hdw, dinPipe_run hrst (by omega), hindex, product]

/-- The output is the saturating sum of all products. -/
theorem doutO_run {t : ℕ} (hfill : 2 ^ aw ≤ t + 1) :
    (doutO (run step s ins (t + (aw + 1)))).toInt =
      node (satSum dw) (fun i => saturate dw (product c ins t i)) aw 0 := by
  rw [show t + (aw + 1) = t + 1 + aw by omega]
  exact stageW_run hrst hc hdw hfill (Nat.le_refl aw) (by simp)

end Run

/-! ## Coefficients that need no saturation -/

/-- No product and no adder of the tree has a result that does not fit, whatever was in
the shift chain before.  The adders of a level are looked at when the first products
computed in the run reach them. -/
structure NeverSaturates (c : BitVec aw → BitVec dw) (s : State aw dw)
    (ins : ℕ → Input aw dw) : Prop where
  product : ∀ n k, Fits dw
    ((c k).toInt * (dinPipe (ins n) (run step s ins n) k).toInt / 2 ^ (dw - 1))
  adder : ∀ n stage k, stage < aw → k < 2 ^ (aw - (stage + 1)) →
    Fits dw ((stageW (run step s ins (n + 1 + stage)) stage (2 * k)).toInt +
      (stageW (run step s ins (n + 1 + stage)) stage (2 * k + 1)).toInt)

section Small

variable {s : State aw dw} {ins : ℕ → Input aw dw} {c : BitVec aw → BitVec dw} (hdw : 0 < dw)
  (hsmall : ∑ i ∈ range (2 ^ aw), |(c (BitVec.ofNat aw i)).toInt| ≤ 2 ^ (dw - 1) - 1)

include hdw in
theorem abs_product_le (a : ℤ) (x : BitVec dw) : |a * x.toInt / 2 ^ (dw - 1)| ≤ |a| := by
  apply abs_mul_div_le
  rw [Nat.sub_add_cancel hdw]
  exact fits_toInt x

include hdw hsmall

theorem fits_product (k : BitVec aw) (x : BitVec dw) :
    Fits dw ((c k).toInt * x.toInt / 2 ^ (dw - 1)) := by
  have hmem := single_le_sum (f := fun i => |(c (BitVec.ofNat aw i)).toInt|)
    (fun i _ => abs_nonneg _) (mem_range.mpr k.isLt)
  rw [BitVec.ofNat_toNat, BitVec.setWidth_eq] at hmem
  exact fits_of_abs_le (((abs_product_le hdw _ x).trans hmem).trans hsmall)

/-- The products are bounded by the coefficients, so their sums are as well. -/
theorem sum_abs_products_le (x : ℕ → BitVec dw) :
    ∑ i ∈ range (2 ^ aw), |saturate dw
      ((c (BitVec.ofNat aw i)).toInt * (x i).toInt / 2 ^ (dw - 1))| ≤ 2 ^ (dw - 1) - 1 := by
  refine le_trans (sum_le_sum fun i _ => ?_) hsmall
  rw [saturate_of_fits (fits_product hdw hsmall _ _)]
  exact abs_product_le hdw _ _

variable (hrst : ∀ n, (ins n).rst = false) (hc : ∀ n, coeffs (run step s ins n) = c)

include hrst hc

theorem neverSaturates : NeverSaturates c s ins where
  product n k := fits_product hdw hsmall k _
  adder n stage k hstage hk := by
    have hpow : 2 ^ (aw - stage) = 2 * 2 ^ (aw - (stage + 1)) := by
      rw [← pow_succ', show aw - (stage + 1) + 1 = aw - stage by omega]
    have hleaves : 2 ^ (stage + 1) * (k + 1) ≤ 2 ^ aw := by
      calc 2 ^ (stage + 1) * (k + 1) ≤ 2 ^ (stage + 1) * 2 ^ (aw - (stage + 1)) :=
            Nat.mul_le_mul_left _ hk
        _ = 2 ^ aw := by rw [← pow_add, show stage + 1 + (aw - (stage + 1)) = aw by omega]
    rw [stageW_run_node hrst (n + 1) hstage.le (by omega),
      stageW_run_node hrst (n + 1) hstage.le (by omega),
      map_node _ _ (satSum dw) BitVec.toInt (toInt_satAdd hdw),
      map_node _ _ (satSum dw) BitVec.toInt (toInt_satAdd hdw)]
    apply fits_node_add_node _ hleaves
    have hbound := sum_abs_products_le hdw hsmall fun i =>
      dinPipe (ins n) (run step s ins n) (BitVec.ofNat aw i)
    refine le_trans (le_of_eq (sum_congr rfl fun i _ => ?_)) hbound
    rw [← toInt_outR_run hrst hc hdw]
    rfl

/-- Without saturation the output is the sum of the products. -/
theorem doutO_run_of_small {t : ℕ} (hfill : 2 ^ aw ≤ t + 1) :
    (doutO (run step s ins (t + (aw + 1)))).toInt = ∑ i ∈ range (2 ^ aw), product c ins t i := by
  have hbound := sum_abs_products_le hdw hsmall fun i => (ins (t - i)).dinI
  rw [doutO_run hrst hc hdw hfill, node_satSum]
  · apply sum_congr rfl
    intro i _
    rw [Nat.mul_zero, Nat.zero_add]
    exact saturate_of_fits (fits_product hdw hsmall _ _)
  · simpa [product] using hbound

end Small

/-! ## The filter of the design -/

/-- Samples of 16 bits: the output is the saturating convolution of the input with the
coefficients, {lit}`AW + 1` cycles late.  If the coefficients are small enough, nothing
saturates, and rounding costs less than one per tap. -/
theorem doutO_convolution (s : State aw 16) (ins : ℕ → Input aw 16)
    (c : BitVec aw → BitVec 16) (hrst : ∀ n, (ins n).rst = false)
    (hc : ∀ n, coeffs (run step s ins n) = c) :
    (∀ t, 2 ^ aw ≤ t + 1 →
      (doutO (run step s ins (t + (aw + 1)))).toInt =
        node (satSum 16) (fun i => saturate 16 (product c ins t i)) aw 0) ∧
    (∑ i ∈ range (2 ^ aw), |(c (BitVec.ofNat aw i)).toInt| ≤ 32767 →
      NeverSaturates c s ins ∧
      ∀ t, 2 ^ aw ≤ t + 1 →
        (doutO (run step s ins (t + (aw + 1)))).toInt =
          ∑ i ∈ range (2 ^ aw), product c ins t i ∧
        |((∑ i ∈ range (2 ^ aw),
            (c (BitVec.ofNat aw i)).toInt * (ins (t - i)).dinI.toInt : ℤ) : ℚ) / 2 ^ 15 -
          ((doutO (run step s ins (t + (aw + 1)))).toInt : ℚ)| < 2 ^ aw) := by
  have hdw : 0 < 16 := by norm_num
  refine ⟨fun t hfill => doutO_run hrst hc hdw hfill, fun hsmall => ?_⟩
  refine ⟨neverSaturates hdw hsmall hrst hc, fun t hfill => ?_⟩
  have hsum := doutO_run_of_small hdw hsmall hrst hc hfill
  refine ⟨hsum, ?_⟩
  rw [hsum]
  have hround := abs_sum_div_sub_lt (n := 2 ^ aw) (2 ^ 15) (by norm_num) (by positivity)
    fun i => (c (BitVec.ofNat aw i)).toInt * (ins (t - i)).dinI.toInt
  exact_mod_cast hround

/-- Without a load the coefficients stay the same. -/
theorem coeffs_run_of_hold {s : State aw dw} {ins : ℕ → Input aw dw}
    (hrst : ∀ n, (ins n).rst = false) (hhold : ∀ n, (ins n).tapChainWriteEnI = false) (n : ℕ) :
    coeffs (run step s ins n) = coeffs s := by
  induction n with
  | zero => rfl
  | succ n ih =>
      rw [run_succ, coeffs_step, hrst n, hhold n]
      simpa using ih

/-- Two taps with coefficients one half and minus one quarter. -/
def twoTaps : State 1 16 where
  tapCoeffs := fun _ => 0
  taps := fun k =>
    { coeffR := if k = 0 then 16384#16 else BitVec.ofInt 16 (-8192)
      dinPipe1R := 0
      outR := 0 }
  stageData := fun _ _ => 0

/-- An input that counts the cycles, without loads. -/
def countingInput (n : ℕ) : Input 1 16 where
  rst := false
  tapAddrI := 0
  tapCoeffI := 0
  tapMemWriteEnI := false
  tapChainWriteEnI := false
  dinI := BitVec.ofNat 16 n

theorem doutO_convolution_twoTaps :
    (∀ t, 2 ^ 1 ≤ t + 1 →
      (doutO (run step twoTaps countingInput (t + (1 + 1)))).toInt =
        node (satSum 16) (fun i => saturate 16 (product (coeffs twoTaps) countingInput t i)) 1 0) ∧
    NeverSaturates (coeffs twoTaps) twoTaps countingInput := by
  have hmain := doutO_convolution twoTaps countingInput (coeffs twoTaps) (fun _ => rfl)
    (coeffs_run_of_hold (fun _ => rfl) fun _ => rfl)
  exact ⟨hmain.1, (hmain.2 (by decide)).1⟩

end Fir
end PoundDreverHall
