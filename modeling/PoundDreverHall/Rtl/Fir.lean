import PoundDreverHall.Rtl.Primitives

/-!
# RTL - `fir`, `fir_tap` and `iq_demod`

The FIR filter keeps two copies of its coefficients: the staging memory
`tap_coeffs`, written one word at a time, and the register `coeff_r` of every
tap, loaded from the memory by all taps at once while {lit}`tap_chain_write_en_i`
is high.  The number of taps is a power of two, so taps and staging memory are
indexed by the address type.
-/

namespace PoundDreverHall

/-! ## `fir_tap` -/

namespace FirTap

/-- Registers of one tap. -/
structure State (dw : ℕ) where
  coeffR : BitVec dw
  dinPipe1R : BitVec dw
  outR : BitVec dw
deriving DecidableEq, Repr

/-- Registers under reset. -/
def resetState {dw : ℕ} : State dw where
  coeffR := 0
  dinPipe1R := 0
  outR := 0

/-- `saturate_product`: the two top bits differ exactly on overflow. -/
def saturateProduct {dw : ℕ} (x : BitVec (dw + 1)) : BitVec dw :=
  if x.getLsbD dw ^^ x.getLsbD (dw - 1) then
    if x.getLsbD dw then BitVec.intMin dw else BitVec.intMax dw
  else x.setWidth dw

/-- `prod_wide_w`. -/
def prodWideW {dw : ℕ} (dinI : BitVec dw) (s : State dw) : BitVec (2 * dw) :=
  s.coeffR.signExtend (2 * dw) * dinI.signExtend (2 * dw)

/-- `out_w`. -/
def outW {dw : ℕ} (dinI : BitVec dw) (s : State dw) : BitVec dw :=
  saturateProduct ((prodWideW dinI s).extractLsb' (dw - 1) (dw + 1))

/-- `next_coeff_w`. -/
def nextCoeffW {dw : ℕ} (wrenI : Bool) (coeffInI : BitVec dw) (s : State dw) : BitVec dw :=
  if wrenI then coeffInI else s.coeffR

/-- One rising edge of {lit}`clk`. -/
def step {dw : ℕ} (rst wrenI : Bool) (dinI coeffInI : BitVec dw) (s : State dw) : State dw :=
  if rst then resetState
  else
    { coeffR := nextCoeffW wrenI coeffInI s
      dinPipe1R := dinI
      outR := outW dinI s }

end FirTap

/-! ## `fir` -/

namespace Fir

/-- Input ports. -/
structure Input (aw dw : ℕ) where
  rst : Bool
  tapAddrI : BitVec aw
  tapCoeffI : BitVec dw
  tapMemWriteEnI : Bool
  tapChainWriteEnI : Bool
  dinI : BitVec dw

/-- Registers: the staging memory, the taps, and the stages of the adder tree.
Stage {lit}`s` of the tree has {lit}`NTAPS >> (s + 1)` registers. -/
structure State (aw dw : ℕ) where
  tapCoeffs : BitVec aw → BitVec dw
  taps : BitVec aw → FirTap.State dw
  stageData : ℕ → ℕ → BitVec dw

variable {aw dw : ℕ}

/-- `sat_add`. -/
def satAdd (a b : BitVec dw) : BitVec dw :=
  FirTap.saturateProduct (a.signExtend (dw + 1) + b.signExtend (dw + 1))

/-- `din_pipe[i]`: the input for the first tap, the delayed input of the previous
tap for the others. -/
def dinPipe (i : Input aw dw) (s : State aw dw) (k : BitVec aw) : BitVec dw :=
  if k = 0 then i.dinI else (s.taps (k - 1)).dinPipe1R

/-- `stage_data[s][k]`: the tap outputs, then the registers of the tree. -/
def stageW (s : State aw dw) (stage k : ℕ) : BitVec dw :=
  match stage with
  | 0 => (s.taps (BitVec.ofNat aw k)).outR
  | stage + 1 => s.stageData stage k

/-- `dout_o`. -/
def doutO (s : State aw dw) : BitVec dw :=
  stageW s aw 0

/-- One rising edge of {lit}`clk`.  The staging memory has no reset. -/
def step (i : Input aw dw) (s : State aw dw) : State aw dw where
  tapCoeffs :=
    if i.tapMemWriteEnI then Function.update s.tapCoeffs i.tapAddrI i.tapCoeffI
    else s.tapCoeffs
  taps := fun k =>
    FirTap.step i.rst i.tapChainWriteEnI (dinPipe i s k) (s.tapCoeffs k) (s.taps k)
  stageData := fun stage k =>
    if i.rst then 0
    else if stage < aw ∧ k < 2 ^ aw >>> (stage + 1) then
      satAdd (stageW s stage (2 * k)) (stageW s stage (2 * k + 1))
    else s.stageData stage k

/-- Registers under reset, for given contents of the staging memory. -/
def resetState (tapCoeffs : BitVec aw → BitVec dw) : State aw dw where
  tapCoeffs := tapCoeffs
  taps := fun _ => FirTap.resetState
  stageData := fun _ _ => 0

/-- The vector of active coefficients, `coeff_r` of every tap. -/
def coeffs (s : State aw dw) : BitVec aw → BitVec dw :=
  fun k => (s.taps k).coeffR

/-- All taps load together, or none does. -/
theorem coeffs_step (i : Input aw dw) (s : State aw dw) :
    coeffs (step i s) =
      if i.rst then fun _ => 0
      else if i.tapChainWriteEnI then s.tapCoeffs else coeffs s := by
  funext k
  simp only [coeffs, step, FirTap.step, FirTap.nextCoeffW, FirTap.resetState]
  split_ifs <;> rfl

end Fir

/-! ## `iq_demod` -/

namespace IqDemod

/-- The value of {lit}`out_o` after one rising edge: bits 30 to 15 of the signed
product. -/
def step (rst : Bool) (refI inI : BitVec 16) : BitVec 16 :=
  if rst then 0#16 else (refI.signExtend 32 * inI.signExtend 32).extractLsb' 15 16

end IqDemod
end PoundDreverHall
