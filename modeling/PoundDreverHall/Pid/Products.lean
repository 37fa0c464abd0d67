import PoundDreverHall.Pid.Output

/-!
# PID controller - the products

The proportional and the derivative term are cut out of a 32-bit product of two
fractions with 15 fractional bits.  The slice leaves out the sign bit, which is
redundant for every product but one.

Main results:

- Theorem {lit}`pErrorR_eq` and theorem {lit}`dErrorR_eq`: the registers hold the
  product of the operands latched last.
- Theorem {lit}`products_exact_iff`: a term is the saturated product if and only if
  its operands are not both {lit}`-1`.
-/

namespace PoundDreverHall
namespace PidCore

open Clocked FixedPoint

/-! ## Latched operands -/

section Runs

variable (ins : ℕ → Input)

/-- What a product register holds in cycle {lit}`n` if its operands are {lit}`x`: the pair
of the last cycle with {lit}`tick2_r`, and zeros after a reset or a pause. -/
def latched (x : ℕ → BitVec 16 × BitVec 16) : ℕ → BitVec 16 × BitVec 16
  | 0 => (0#16, 0#16)
  | n + 1 =>
      if (ins n).active then
        if (run step resetState ins n).tick2R then x n else latched x n
      else (0#16, 0#16)

/-- The operands of `p_error_w`. -/
def pOperands (n : ℕ) : BitVec 16 × BitVec 16 :=
  ((run step resetState ins n).kpR, (run step resetState ins n).errorPipe1R)

/-- The operands of `d_error_w`. -/
def dOperands (n : ℕ) : BitVec 16 × BitVec 16 :=
  ((run step resetState ins n).kdR, errMinusEmaW (ins n) (run step resetState ins n))

/-- The product of a pair of operands. -/
def product (x : BitVec 16 × BitVec 16) : ℤ := x.1.toInt * x.2.toInt

variable {ins} {x : ℕ → BitVec 16 × BitVec 16} {r : State → BitVec 32}

/-- A register that takes the product on {lit}`tick2_r` holds the product of the latched
operands. -/
theorem toInt_register_eq (hclear : ∀ s, Cleared s → r s = 0#32)
    (hstep : ∀ n, (ins n).active = true →
      (r (step (ins n) (run step resetState ins n))).toInt =
        if (run step resetState ins n).tick2R then product (x n)
        else (r (run step resetState ins n)).toInt) (n : ℕ) :
    (r (run step resetState ins n)).toInt = product (latched ins x n) := by
  induction n with
  | zero =>
      rw [run_zero, hclear _ cleared_resetState]
      rfl
  | succ n ih =>
      rw [run_succ, latched]
      cases hactive : (ins n).active with
      | false =>
          rw [hclear _ (cleared_step hactive)]
          rfl
      | true =>
          rw [hstep n hactive, ih, if_pos rfl, apply_ite product]

theorem pErrorR_eq (n : ℕ) :
    (run step resetState ins n).pErrorR.toInt = product (latched ins (pOperands ins) n) := by
  apply toInt_register_eq (r := State.pErrorR) (fun s hs => hs.pErrorR)
  intro n hactive
  rw [step_active hactive]
  exact toInt_pErrorW _

theorem dErrorR_eq (n : ℕ) :
    (run step resetState ins n).dErrorR.toInt = product (latched ins (dOperands ins) n) := by
  apply toInt_register_eq (r := State.dErrorR) (fun s hs => hs.dErrorR)
  intro n hactive
  rw [step_active hactive]
  exact toInt_dErrorW _ _

end Runs

/-! ## The slices -/

/-- Both operands are {lit}`-1`. -/
def BothLowest (x : BitVec 16 × BitVec 16) : Prop := x.1 = 0x8000#16 ∧ x.2 = 0x8000#16

instance (x : BitVec 16 × BitVec 16) : Decidable (BothLowest x) :=
  inferInstanceAs (Decidable (_ ∧ _))

theorem fits_product_iff (x : BitVec 16 × BitVec 16) :
    Fits 16 (product x / 2 ^ 15) ↔ ¬BothLowest x := by
  have hlowest : ∀ y : BitVec 16, y.toInt = -2 ^ 15 ↔ y = 0x8000#16 := by
    intro y
    have hvalue : (0x8000#16).toInt = -2 ^ 15 := by decide
    rw [← BitVec.toInt_inj, hvalue]
  rw [product, fits_mul_div_iff (n := 15) (fits_toInt x.1) (fits_toInt x.2), hlowest, hlowest]
  rfl

/-- The slice of a product is its saturated value, unless both operands are lowest. -/
theorem slice_eq_saturate_iff (x : BitVec 16 × BitVec 16) :
    (product x / 2 ^ 15).bmod (2 ^ 16) = saturate 16 (product x / 2 ^ 15) ↔ ¬BothLowest x := by
  constructor
  · rintro hsame ⟨h₁, h₂⟩
    rw [product, h₁, h₂] at hsame
    exact absurd hsame (by decide)
  · intro hne
    have hfits := (fits_product_iff x).mpr hne
    rw [bmod_of_fits (by decide) hfits, saturate_of_fits hfits]

/-- In every cycle of every run the proportional and the derivative term are the
saturated products of their latched operands, rounded down, unless these are both
{lit}`-1`. -/
theorem products_exact_iff (ins : ℕ → Input) (n : ℕ) :
    ((perrTap (run step resetState ins n)).toInt =
        saturate 16 (product (latched ins (pOperands ins) n) / 2 ^ 15) ↔
      ¬BothLowest (latched ins (pOperands ins) n)) ∧
    ((derrTap (run step resetState ins n)).toInt =
        saturate 16 (product (latched ins (dOperands ins) n) / 2 ^ 15) ↔
      ¬BothLowest (latched ins (dOperands ins) n)) := by
  rw [perrTap, derrTap, toInt_pErrorShiftedW, toInt_dErrorShiftedW, pErrorR_eq, dErrorR_eq]
  exact ⟨slice_eq_saturate_iff _, slice_eq_saturate_iff _⟩

/-! ## The product of the lowest fractions -/

/-- Proportional and derivative coefficient {lit}`-1` on a sample that saturates the
gained error. -/
def lowestOperands : Input where
  rst := false
  kpI := 0x8000#16
  kdI := 0x8000#16
  kiI := 0#16
  decimateI := 1#14
  spI := 0#14
  alphaI := 15#4
  satwidthI := 31#5
  datI := -8191#16
  enableI := true
  gainI := 1024#16
  egainI := 5120#16
  biasI := 0#14

/-- Coefficient and error are negative, and so is the proportional term. -/
theorem lowestOperands_wrap :
    ∃ (ins : ℕ → Input) (n : ℕ),
      product (latched ins (pOperands ins) n) / 2 ^ 15 = 2 ^ 15 ∧
        (perrTap (run step resetState ins n)).toInt = -2 ^ 15 ∧
        ¬(perrTap (run step resetState ins n)).toInt =
          saturate 16 (product (latched ins (pOperands ins) n) / 2 ^ 15) :=
  ⟨fun _ => lowestOperands, 3, by decide +kernel⟩

end PidCore
end PoundDreverHall
