import Mathlib.Algebra.Order.Field.Rat
import Mathlib.Data.Rat.Floor
import PoundDreverHall.Server.Hardware

/-!
# Server - requests and replies

A request reaches its handler as arrays of parsed arguments, and the handler
answers with a return code and a list of named values.  The handlers turn
single-precision arguments into fixed-point codes; the arithmetic of {lit}`float`
is a parameter.
-/

namespace PoundDreverHall
namespace Server

open Device

/-! ## Single precision -/

/-- The operations on {lit}`float` that the handlers use.  A literal is given by its
value, and {lit}`long` has 32 bits. -/
class SinglePrecision (F : Type) where
  lit : ℚ → F
  ofInt : ℤ → F
  mul : F → F → F
  div : F → F → F
  lt : F → F → Bool
  le : F → F → Bool
  lrintf : F → BitVec 32

/-- Rounding to the nearest integer, halves to even. -/
def roundHalfEven (x : ℚ) : ℤ :=
  let n := (x + 1 / 2).floor
  if (n : ℚ) = x + 1 / 2 ∧ n % 2 = 1 then n - 1 else n

/-- Exact arithmetic, which is what {lit}`float` does where no operation rounds. -/
instance : SinglePrecision ℚ where
  lit := id
  ofInt := Int.cast
  mul := (· * ·)
  div := (· / ·)
  lt := fun x y => decide (x < y)
  le := fun x y => decide (x ≤ y)
  lrintf := fun x => BitVec.ofInt 32 (roundHalfEven x)

/-- What the handlers besides the controller and the filter use: more operations on
{lit}`float`, those on {lit}`double`, and the conversions.  {lit}`ofText` is the value that
`strtof` gives to the text of a number, and {lit}`toText` is {lit}`%f`. -/
class MixedPrecision (F : Type) extends SinglePrecision F where
  add : F → F → F
  sub : F → F → F
  neg : F → F
  cosf : F → F
  sinf : F → F
  toInt32 : F → BitVec 32
  ofText : List Char → F
  toText : F → List Char
  toText_chars : ∀ x, ∀ c ∈ toText x, c.isAlphanum ∨ c = '-' ∨ c = '.'
  Double : Type
  doubleLit : ℚ → Double
  doubleOfInt : ℤ → Double
  doubleAdd : Double → Double → Double
  doubleSub : Double → Double → Double
  doubleMul : Double → Double → Double
  doubleDiv : Double → Double → Double
  doubleNeg : Double → Double
  doubleLt : Double → Double → Bool
  widen : F → Double
  narrow : Double → F

/-- The value of a decimal number. -/
def decimalValue (text : List Char) : ℚ :=
  let sign : ℚ := if text.head? = some '-' then -1 else 1
  let text := text.dropWhile fun c => c = '+' || c = '-'
  let whole := text.takeWhile Char.isDigit
  let rest := text.dropWhile Char.isDigit
  let fraction := if rest.head? = some '.' then rest.tail.takeWhile Char.isDigit else []
  let rest := if rest.head? = some '.' then rest.tail.dropWhile Char.isDigit else rest
  let exponent := Nat.ofDigitChars 10 (rest.filter Char.isDigit) 0
  let scale : ℚ := if '-' ∈ rest then 1 / 10 ^ exponent else 10 ^ exponent
  sign * (Nat.ofDigitChars 10 (whole ++ fraction) 0 / 10 ^ fraction.length) * scale

/-- A number with six decimals. -/
def sixDecimals (x : ℚ) : List Char :=
  let n := (roundHalfEven (x * 1000000)).natAbs
  let decimals := Nat.toDigits 10 (n % 1000000)
  (if x < 0 then ['-'] else []) ++ Nat.toDigits 10 (n / 1000000) ++ ['.'] ++
    List.replicate (6 - decimals.length) '0' ++ decimals

theorem sixDecimals_chars (x : ℚ) (c : Char) (hc : c ∈ sixDecimals x) :
    c.isAlphanum ∨ c = '-' ∨ c = '.' := by
  have hdigit : ∀ n, ∀ c ∈ Nat.toDigits 10 n, c.isAlphanum := by
    intro n c hc
    have hc := Nat.isDigit_of_mem_toDigits (by omega) (by omega) hc
    simp [Char.isAlphanum, hc]
  simp only [sixDecimals, List.mem_append, List.mem_singleton, List.mem_replicate] at hc
  rcases hc with (((hc | hc) | hc) | hc) | hc
  · split_ifs at hc with hneg
    · exact .inr (.inl (List.mem_singleton.mp hc))
    · exact absurd hc List.not_mem_nil
  · exact .inl (hdigit _ c hc)
  · exact .inr (.inr hc)
  · rw [hc.2]
    exact .inl rfl
  · exact .inl (hdigit _ c hc)

/-- Exact arithmetic, with the first terms of the series of cosine and sine. -/
instance : MixedPrecision ℚ where
  add := (· + ·)
  sub := (· - ·)
  neg := fun x => -x
  cosf := fun x => 1 - x ^ 2 / 2
  sinf := fun x => x - x ^ 3 / 6
  toInt32 := fun x => BitVec.ofInt 32 (if x < 0 then x.ceil else x.floor)
  ofText := decimalValue
  toText := sixDecimals
  toText_chars := sixDecimals_chars
  Double := ℚ
  doubleLit := id
  doubleOfInt := Int.cast
  doubleAdd := (· + ·)
  doubleSub := (· - ·)
  doubleMul := (· * ·)
  doubleDiv := (· / ·)
  doubleNeg := fun x => -x
  doubleLt := fun x y => decide (x < y)
  widen := id
  narrow := id

variable {F : Type} [SinglePrecision F]

open SinglePrecision

/-- The two comparisons against the ends of a range. -/
def clamp (lo hi x : BitVec 32) : BitVec 32 :=
  if BitVec.slt hi x then hi else if BitVec.slt x lo then lo else x

/-- `float_to_q15`. -/
def floatToQ15 (x : F) : BitVec 16 :=
  if le (lit (32767 / 32768)) x then 0x7FFF#16
  else if le x (lit (-1)) then 0x8000#16
  else (clamp (-32768) 32767 (lrintf (mul x (lit 32768)))).setWidth 16

/-! ## `cmd_ctx_t` -/

/-- The arguments of a request; entries that the request did not give are zero. -/
structure CmdCtx (F : Type) where
  floatArgs : ℕ → F
  uintArgs : ℕ → BitVec 32
  numFloats : ℕ
  numFloats_le : numFloats ≤ 64

/-- The `data` of an output item, with its tag. -/
inductive OutputData (F : Type) where
  | float (f : F)
  | int (i : BitVec 32)
  | uint (u : BitVec 32)

/-- `output_item_t`. -/
structure OutputItem (F : Type) where
  name : String
  data : OutputData F

/-- What a handler returns and leaves in `ctx->output`. -/
structure Reply (F : Type) where
  returnCode : ℕ
  outputItems : List (OutputItem F)

/-- `push_ctx_cb`. -/
def Reply.pushCtxCb (r : Reply F) (data : OutputData F) (name : String) : Reply F :=
  { r with outputItems := r.outputItems ++ [⟨name, data⟩] }

/-- `validate_cb`: the success code becomes the failure code if the callback is not
the expected one. -/
def validateCb {α : Type} [DecidableEq α] (cb expected : α) (successCode failCode : ℕ) : ℕ :=
  if cb ≠ expected then failCode else successCode

/-- `validate_cb` on the return code of a reply. -/
def Reply.validate {α : Type} [DecidableEq α] (r : Reply F) (cb expected : α) (failCode : ℕ) :
    Reply F :=
  { r with returnCode := validateCb cb expected r.returnCode failCode }

end Server
end PoundDreverHall
