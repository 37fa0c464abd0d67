import Mathlib.Data.BitVec

/-!
# Devices - bit-fields of a word

A driver sees the word of a device register as a record of bit-fields.  Assigning
a field replaces its bits and keeps all others.

Main results:

- Structure {lit}`BitField`: a field that fits into its word.
- Theorem {lit}`BitField.get_set`: a field reads back what was assigned.
- Theorem {lit}`BitField.get_set_of_disjoint`: an assignment changes no other
  field.
-/

namespace Device

/-- A field of {lit}`len` bits that starts at bit {lit}`lo` of a word of
{lit}`w` bits. -/
structure BitField (w : ℕ) where
  lo : ℕ
  len : ℕ
  fits : lo + len ≤ w

namespace BitField

variable {w : ℕ}

/-- The value of a field. -/
def get (f : BitField w) (x : BitVec w) : BitVec f.len :=
  x.extractLsb' f.lo f.len

/-- The bits of a field. -/
def mask (f : BitField w) : BitVec w :=
  (BitVec.allOnes f.len).setWidth w <<< f.lo

/-- Assignment of a field. -/
def set (f : BitField w) (v : BitVec f.len) (x : BitVec w) : BitVec w :=
  (x &&& ~~~f.mask) ||| (v.setWidth w <<< f.lo)

/-- Two fields share no bit. -/
def Disjoint (f g : BitField w) : Prop :=
  f.lo + f.len ≤ g.lo ∨ g.lo + g.len ≤ f.lo

instance (f g : BitField w) : Decidable (f.Disjoint g) :=
  inferInstanceAs (Decidable (_ ∨ _))

theorem getLsbD_get (f : BitField w) (x : BitVec w) {i : ℕ} (hi : i < f.len) :
    (f.get x).getLsbD i = x.getLsbD (f.lo + i) := by
  simp [get, hi]

/-- Every bit after an assignment. -/
theorem getLsbD_set (f : BitField w) (v : BitVec f.len) (x : BitVec w) (i : ℕ) :
    (f.set v x).getLsbD i =
      if f.lo ≤ i ∧ i < f.lo + f.len then v.getLsbD (i - f.lo) else x.getLsbD i := by
  have hfits := f.fits
  by_cases hiw : i < w
  · by_cases hlow : i < f.lo
    · rw [if_neg (by omega)]
      simp [set, mask, hiw, hlow]
    · have hshift : (i - f.lo < f.len) ↔ i < f.lo + f.len := by omega
      by_cases hhigh : i < f.lo + f.len
      · rw [if_pos (by omega)]
        simp [set, mask, hiw, hlow, hshift.mpr hhigh]
      · have hout : v.getLsbD (i - f.lo) = false := BitVec.getLsbD_of_ge v _ (by omega)
        rw [if_neg (by omega)]
        simp [set, mask, hiw, hlow, hshift, hhigh, hout]
  · rw [if_neg (by omega), BitVec.getLsbD_of_ge _ _ (by omega),
      BitVec.getLsbD_of_ge _ _ (by omega)]

/-- A field reads back what was assigned. -/
@[simp]
theorem get_set (f : BitField w) (v : BitVec f.len) (x : BitVec w) : f.get (f.set v x) = v := by
  apply BitVec.eq_of_getLsbD_eq
  intro i hi
  rw [getLsbD_get f _ hi, getLsbD_set, if_pos (by omega), Nat.add_sub_cancel_left]

/-- An assignment changes no other field. -/
theorem get_set_of_disjoint {f g : BitField w} (h : f.Disjoint g) (v : BitVec f.len)
    (x : BitVec w) : g.get (f.set v x) = g.get x := by
  apply BitVec.eq_of_getLsbD_eq
  intro i hi
  rw [getLsbD_get g _ hi, getLsbD_get g _ hi, getLsbD_set, if_neg]
  rcases h with h | h <;> omega

/-- A bit outside a field keeps its value. -/
theorem getLsbD_set_of_disjoint {f : BitField w} {i : ℕ} (h : i < f.lo ∨ f.lo + f.len ≤ i)
    (v : BitVec f.len) (x : BitVec w) : (f.set v x).getLsbD i = x.getLsbD i := by
  rw [getLsbD_set, if_neg (by omega)]

end BitField

/-! ## Packed words

A concatenation lists its fields from the highest bit down. -/

/-- The number of bits of a list of fields. -/
def packWidth : List ((n : ℕ) × BitVec n) → ℕ
  | [] => 0
  | x :: fs => x.1 + packWidth fs

/-- The number that a list of fields stands for. -/
def packNat : List ((n : ℕ) × BitVec n) → ℕ
  | [] => 0
  | x :: fs => x.2.toNat * 2 ^ packWidth fs + packNat fs

theorem packNat_lt (fs : List ((n : ℕ) × BitVec n)) : packNat fs < 2 ^ packWidth fs := by
  induction fs with
  | nil => simp [packNat, packWidth]
  | cons x fs ih =>
      have hx := x.2.isLt
      rw [packNat, packWidth, Nat.pow_add]
      calc x.2.toNat * 2 ^ packWidth fs + packNat fs
          < x.2.toNat * 2 ^ packWidth fs + 2 ^ packWidth fs := by omega
        _ = (x.2.toNat + 1) * 2 ^ packWidth fs := by rw [Nat.add_mul, Nat.one_mul]
        _ ≤ 2 ^ x.1 * 2 ^ packWidth fs := Nat.mul_le_mul_right _ hx

/-- The number that a concatenation stands for. -/
theorem toNat_pack {m n : ℕ} (x : BitVec m) (y : BitVec n) :
    (x ++ y).toNat = x.toNat * 2 ^ n + y.toNat := by
  rw [BitVec.toNat_append, ← Nat.shiftLeft_add_eq_or_of_lt y.isLt, Nat.shiftLeft_eq]

theorem packWidth_drop_le (fs : List ((n : ℕ) × BitVec n)) (i : ℕ) :
    packWidth (fs.drop i) ≤ packWidth fs := by
  induction fs generalizing i with
  | nil => simp
  | cons x fs ih =>
      cases i with
      | zero => exact Nat.le_refl _
      | succ i => exact Nat.le_trans (ih i) (Nat.le_add_left _ _)

/-- Every field can be cut out of the number. -/
theorem packNat_div_mod (fs : List ((n : ℕ) × BitVec n)) (i : ℕ) (hi : i < fs.length) :
    packNat fs / 2 ^ packWidth (fs.drop (i + 1)) % 2 ^ fs[i].1 = fs[i].2.toNat := by
  induction fs generalizing i with
  | nil => exact absurd hi (Nat.not_lt_zero i)
  | cons x fs ih =>
      cases i with
      | zero =>
          change (x.2.toNat * 2 ^ packWidth fs + packNat fs) / 2 ^ packWidth fs % 2 ^ x.1 =
            x.2.toNat
          rw [Nat.add_comm, Nat.add_mul_div_right _ _ (Nat.two_pow_pos _),
            Nat.div_eq_of_lt (packNat_lt fs), Nat.zero_add, Nat.mod_eq_of_lt x.2.isLt]
      | succ i =>
          have hi' : i < fs.length := Nat.lt_of_succ_lt_succ hi
          change (x.2.toNat * 2 ^ packWidth fs + packNat fs) / 2 ^ packWidth (fs.drop (i + 1)) %
            2 ^ fs[i].1 = fs[i].2.toNat
          -- the field and all below it lie below the first one
          have hbelow : fs[i].1 + packWidth (fs.drop (i + 1)) ≤ packWidth fs := by
            have hdrop := packWidth_drop_le fs i
            rwa [List.drop_eq_getElem_cons hi'] at hdrop
          obtain ⟨k, hk⟩ := Nat.exists_eq_add_of_le hbelow
          have hfirst : x.2.toNat * 2 ^ packWidth fs =
              x.2.toNat * 2 ^ k * 2 ^ fs[i].1 * 2 ^ packWidth (fs.drop (i + 1)) := by
            rw [hk, Nat.pow_add, Nat.pow_add]
            simp only [Nat.mul_assoc, Nat.mul_comm, Nat.mul_left_comm]
          rw [hfirst, Nat.add_comm, Nat.add_mul_div_right _ _ (Nat.two_pow_pos _),
            Nat.add_mul_mod_self_right, ih i hi']

namespace BitField

/-- A field of a packed word. -/
theorem get_pack {w : ℕ} {x : BitVec w} {fs : List ((n : ℕ) × BitVec n)}
    (h : x.toNat = packNat fs) {f : BitField w} {v : BitVec f.len} (i : ℕ)
    (hv : fs[i]? = some ⟨f.len, v⟩) (hlo : packWidth (fs.drop (i + 1)) = f.lo) : f.get x = v := by
  apply BitVec.eq_of_toNat_eq
  rcases List.getElem?_eq_some_iff.mp hv with ⟨hi, hfield⟩
  have hcut := packNat_div_mod fs i hi
  rw [hlo, hfield, ← h] at hcut
  rw [get, BitVec.extractLsb'_toNat, Nat.shiftRight_eq_div_pow, hcut]

end BitField

end Device
