import PoundDreverHall.Nco.Coherence

/-!
# NCO - the phase offset of the second output

The second output is taken from a phase that is shifted by up to a quarter turn, forwards
or backwards, and its sign is changed or not.  A change of the sign is half a turn, so the
second output is the first output of an oscillator that is ahead by one offset.

Main results:

- Definition {lit}`phaseOffset`: the offset of a shift and its two marks.
- Theorem {lit}`out2O_eq_offset`: the second output in terms of the offset.
-/

namespace PoundDreverHall
namespace Nco

/-- The offset of a shift, in steps of which 16384 make a turn. -/
def phaseOffset (shift : ℕ) (sub inv : Bool) : ℤ :=
  (if sub then -(shift : ℤ) else shift) + if inv then 8192 else 0

/-- The offset of the settings. -/
def Config.offset (c : Config) : ℤ :=
  phaseOffset c.shiftI.toNat c.subI c.invertI

/-! ## Half a turn -/

theorem romAddr_half (phi : BitVec 14) : romAddr (phi + 8192#14) = romAddr phi := by
  have hlow : (phi + 8192#14).extractLsb' 0 12 = phi.extractLsb' 0 12 := by
    apply BitVec.eq_of_toNat_eq
    simp only [BitVec.extractLsb'_toNat, BitVec.toNat_add, BitVec.toNat_ofNat, Nat.shiftRight_zero]
    omega
  have hparity : (quadrant (phi + 8192#14) = .q1 ∨ quadrant (phi + 8192#14) = .q3) ↔
      (quadrant phi = .q1 ∨ quadrant phi = .q3) := by
    have htop : (phi + 8192#14).extractLsb' 12 2 = phi.extractLsb' 12 2 + 2#2 := by
      apply BitVec.eq_of_toNat_eq
      simp only [BitVec.extractLsb'_toNat, BitVec.toNat_add, BitVec.toNat_ofNat,
        Nat.shiftRight_eq_div_pow]
      omega
    rw [quadrant, quadrant, htop]
    generalize phi.extractLsb' 12 2 = top
    revert top
    decide
  rw [romAddr, romAddr, hlow]
  simp only [hparity]

theorem romSigned_half (phi : BitVec 14) (lookup : BitVec 16) :
    romSigned (phi + 8192#14) lookup = -romSigned phi lookup := by
  have hmsb : (phi + 8192#14).msb = !phi.msb := by
    have hlt := phi.isLt
    rw [BitVec.msb_eq_decide, BitVec.msb_eq_decide, ← decide_not, decide_eq_decide,
      BitVec.toNat_add, BitVec.toNat_ofNat]
    omega
  rw [romSigned_eq, romSigned_eq, hmsb]
  cases phi.msb <;> simp

/-! ## The second output -/

section Offset

variable (rom : Rom) (c : Config) (s₀ : State)

/-- The shifted phase, and half a turn for a change of the sign, are the offset. -/
theorem add_offset (phi : BitVec 14) :
    phi + BitVec.ofInt 14 c.offset = c.shifted phi + if c.invertI then 8192#14 else 0#14 := by
  have hphi := phi.isLt
  have hshift := c.shiftI.isLt
  apply BitVec.eq_of_toNat_eq
  rw [Config.offset, phaseOffset, Config.shifted]
  cases c.subI <;> cases c.invertI
  all_goals
    simp only [if_true, if_false, Bool.false_eq_true, BitVec.toNat_add, BitVec.toNat_sub,
      BitVec.toNat_ofInt, BitVec.toNat_ofNat, BitVec.toNat_setWidth]
    omega

/-- The second output is the first output of an oscillator that is ahead by the offset. -/
theorem out2O_eq_offset {m : ℕ} (hm : 5 ≤ m) :
    out2O (enabledRun rom c s₀ m) =
      romSigned (c.orbit (startPhase s₀ + BitVec.ofInt 14 c.offset) (m - 3))
        (rom (romAddr (c.orbit (startPhase s₀ + BitVec.ofInt 14 c.offset) (m - 5)))) := by
  have horbit : ∀ phi k, c.orbit (phi + 8192#14) k = c.orbit phi k + 8192#14 := by
    intro phi k
    rw [Config.orbit, Config.orbit, BitVec.add_assoc, BitVec.add_comm 8192#14, BitVec.add_assoc]
  rw [out2O_eq rom c s₀ hm, add_offset, Config.inverted]
  cases c.invertI with
  | false => simp
  | true => simp only [if_true, horbit, romAddr_half, romSigned_half]

end Offset

end Nco
end PoundDreverHall
