import Mathlib.Algebra.Order.Field.Basic
import Mathlib.Tactic.FieldSimp
import Mathlib.Tactic.Linarith
import Mathlib.Tactic.Ring

/-!
# Fixed-point arithmetic - angles folded into a quarter turn

A quarter-wave table holds the angles of one quarter turn.  Every other angle is the same
angle of the table, subtracted or not, and moved by half a turn or not.  The angle of the
table is then rounded to a whole number of steps.

Main results:

- Structure {lit}`Folded`: an angle of the quarter turn with its two marks.
- Theorem {lit}`near_fold`: a folded angle is the angle, up to whole turns.
- Theorem {lit}`Folded.near_units` and theorem {lit}`Folded.near_read`: what rounding costs,
  in steps of another table and in the angle that is read back.
-/

namespace FixedPoint

/-! ## Marks on a number -/

section Unfolded

variable {K : Type*} [Field K]

/-- A number, subtracted or not, and moved by {lit}`p` or not. -/
def unfolded (p x : K) (sub half : Bool) : K :=
  (if sub then -x else x) + if half then p else 0

theorem mul_unfolded (c p x : K) (sub half : Bool) :
    c * unfolded p x sub half = unfolded (c * p) (c * x) sub half := by
  cases sub <;> cases half <;> simp [unfolded, mul_add]

variable [LinearOrder K]

/-- The same marks on two numbers keep their distance. -/
theorem abs_unfolded_sub (p x y : K) (sub half : Bool) :
    |unfolded p x sub half - unfolded p y sub half| = |x - y| := by
  cases sub with
  | false => simp [unfolded]
  | true =>
      rw [← abs_neg]
      simp [unfolded]
      ring_nf

end Unfolded

variable {K : Type*} [Field K] [LinearOrder K]

/-! ## Distance up to whole turns -/

/-- Two numbers differ by no more than {lit}`e`, up to a multiple of {lit}`m`. -/
def NearMod (m e x y : K) : Prop := ∃ k : ℤ, |x - y - k * m| ≤ e

section NearMod

variable {m e e' x y z : K}

/-- A whole turn less. -/
theorem NearMod.sub_turn (h : NearMod m e x y) : NearMod m e (x - m) y := by
  rcases h with ⟨k, hk⟩
  refine ⟨k - 1, ?_⟩
  rwa [show x - m - y - ((k - 1 : ℤ) : K) * m = x - y - k * m by push_cast; ring]

/-- A whole turn less of the other number. -/
theorem NearMod.of_add_turn (h : NearMod m e x (y + m)) : NearMod m e x y := by
  rcases h with ⟨k, hk⟩
  refine ⟨k + 1, ?_⟩
  rwa [show x - y - ((k + 1 : ℤ) : K) * m = x - (y + m) - k * m by push_cast; ring]

/-- Turns can be counted the other way round. -/
theorem NearMod.of_neg_turn (h : NearMod (-m) e x y) : NearMod m e x y := by
  rcases h with ⟨k, hk⟩
  refine ⟨-k, ?_⟩
  rwa [show x - y - ((-k : ℤ) : K) * m = x - y - k * -m by push_cast; ring]

variable [IsStrictOrderedRing K]

theorem NearMod.trans (h : NearMod m e x y) (h' : NearMod m e' y z) :
    NearMod m (e + e') x z := by
  rcases h with ⟨k, hk⟩
  rcases h' with ⟨l, hl⟩
  refine ⟨k + l, ?_⟩
  have hsplit : x - z - ((k + l : ℤ) : K) * m = (x - y - k * m) + (y - z - l * m) := by
    push_cast
    ring
  rw [hsplit]
  exact (abs_add_le _ _).trans (add_le_add hk hl)

/-- A change of the unit. -/
theorem NearMod.scale (h : NearMod m e x y) (c : K) :
    NearMod (c * m) (|c| * e) (c * x) (c * y) := by
  rcases h with ⟨k, hk⟩
  refine ⟨k, ?_⟩
  rw [show c * x - c * y - (k : K) * (c * m) = c * (x - y - k * m) by ring, abs_mul]
  exact mul_le_mul_of_nonneg_left hk (abs_nonneg c)

end NearMod

/-! ## Folded angles -/

/-- An angle between zero and a quarter turn {lit}`q`, whether it is subtracted, and whether
half a turn is added. -/
structure Folded (q : K) where
  mag : K
  mag_nonneg : 0 ≤ mag
  mag_le : mag ≤ q
  sub : Bool
  half : Bool

section Folded

variable [IsStrictOrderedRing K] {q : K}

/-- The angle that a folded one stands for. -/
def Folded.angle (f : Folded q) : K := unfolded (2 * q) f.mag f.sub f.half

/-- An angle of half a turn: past a quarter turn, it is subtracted from the half turn. -/
def foldHalf (half : Bool) (v : K) (hzero : 0 ≤ v) (hle : v ≤ 2 * q) : Folded q :=
  if hpast : q < v then
    { mag := -(v - 2 * q)
      mag_nonneg := by linarith
      mag_le := by linarith
      sub := true
      half := !half }
  else
    { mag := v
      mag_nonneg := hzero
      mag_le := not_lt.mp hpast
      sub := false
      half := half }

/-- An angle of a turn: past half a turn, the half turn is taken off. -/
def foldTurn (u : K) (hzero : 0 ≤ u) (hle : u ≤ 4 * q) : Folded q :=
  if hpast : 2 * q < u then foldHalf true (u - 2 * q) (by linarith) (by linarith)
  else foldHalf false u hzero (not_lt.mp hpast)

/-- An angle of half a turn in either direction. -/
def fold (r : K) (hlow : -(2 * q) ≤ r) (hhigh : r ≤ 2 * q) : Folded q :=
  if hneg : r < 0 then foldTurn (r + 4 * q) (by linarith) (by linarith)
  else foldTurn r (not_lt.mp hneg) (by linarith)

theorem near_foldHalf (half : Bool) {v : K} (hzero : 0 ≤ v) (hle : v ≤ 2 * q) :
    NearMod (4 * q) 0 (foldHalf half v hzero hle).angle (v + if half then 2 * q else 0) := by
  unfold foldHalf
  split_ifs with hpast hhalf hhalf
  · refine ⟨-1, le_of_eq (abs_eq_zero.mpr ?_)⟩
    simp only [Folded.angle, unfolded, hhalf, if_true, Bool.not_true, Bool.false_eq_true, if_false]
    push_cast
    ring
  · refine ⟨0, le_of_eq (abs_eq_zero.mpr ?_)⟩
    simp [Folded.angle, unfolded, hhalf]
  all_goals
    refine ⟨0, le_of_eq (abs_eq_zero.mpr ?_)⟩
    simp [Folded.angle, unfolded, hhalf]

theorem near_foldTurn {u : K} (hzero : 0 ≤ u) (hle : u ≤ 4 * q) :
    NearMod (4 * q) 0 (foldTurn u hzero hle).angle u := by
  unfold foldTurn
  split_ifs with hpast
  · have hhalf := near_foldHalf true (q := q) (v := u - 2 * q) (by linarith) (by linarith)
    rwa [if_pos rfl, sub_add_cancel] at hhalf
  · have hhalf := near_foldHalf false (q := q) hzero (not_lt.mp hpast)
    rwa [if_neg Bool.false_ne_true, add_zero] at hhalf

/-- A folded angle is the angle, up to whole turns. -/
theorem near_fold {r : K} (hlow : -(2 * q) ≤ r) (hhigh : r ≤ 2 * q) :
    NearMod (4 * q) 0 (fold r hlow hhigh).angle r := by
  unfold fold
  split_ifs with hneg
  · exact (near_foldTurn _ _).of_add_turn
  · exact near_foldTurn _ _

/-! ## Rounded angles -/

variable (f : Folded q) (hq : 0 < q) {n N : K} (hN : 0 < N) (hround : |n - f.mag / q * N| ≤ 1 / 2)

include hq hround

/-- A number of steps, of which {lit}`N` make a quarter turn, taken for steps of which one
more makes a quarter turn. -/
theorem Folded.near_units :
    NearMod (4 * (N + 1)) (3 / 2) (unfolded (2 * (N + 1)) n f.sub f.half)
      (f.angle / q * (N + 1)) := by
  refine ⟨0, ?_⟩
  have hscale : f.angle / q * (N + 1) =
      unfolded (2 * (N + 1)) ((N + 1) / q * f.mag) f.sub f.half := by
    rw [show f.angle / q * (N + 1) = (N + 1) / q * f.angle by ring, Folded.angle, mul_unfolded]
    congr 1
    field_simp
  have hone : f.mag / q ≤ 1 := (div_le_one hq).mpr f.mag_le
  have hnonneg : 0 ≤ f.mag / q := div_nonneg f.mag_nonneg hq.le
  rw [hscale, Int.cast_zero, zero_mul, sub_zero, abs_unfolded_sub,
    show n - (N + 1) / q * f.mag = (n - f.mag / q * N) + -(f.mag / q) by ring]
  calc |n - f.mag / q * N + -(f.mag / q)|
      ≤ |n - f.mag / q * N| + |-(f.mag / q)| := abs_add_le _ _
    _ = |n - f.mag / q * N| + f.mag / q := by rw [abs_neg, abs_of_nonneg hnonneg]
    _ ≤ 3 / 2 := by linarith

include hN

/-- The angle that a number of steps is read back as. -/
theorem Folded.near_read :
    NearMod (4 * q) (q / (2 * N)) (unfolded (2 * q) (q * n / N) f.sub f.half) f.angle := by
  refine ⟨0, ?_⟩
  have hdiff : q * n / N - f.mag = q / N * (n - f.mag / q * N) := by
    field_simp
  rw [Int.cast_zero, zero_mul, sub_zero, Folded.angle, abs_unfolded_sub, hdiff, abs_mul,
    abs_of_pos (div_pos hq hN)]
  calc q / N * |n - f.mag / q * N|
      ≤ q / N * (1 / 2) := mul_le_mul_of_nonneg_left hround (div_pos hq hN).le
    _ = q / (2 * N) := by rw [div_mul_div_comm, mul_one, mul_comm N]

end Folded

end FixedPoint
