import PoundDreverHall.Server.Context

/-!
# Server - `server.c`, the text of a request

A request is a few lines of text: the name of a command and lists of arguments.  The
server looks the lines up by their keys and reads the lists with `strtof`, `strtol` and
`strtoul`.  A byte is a character.

Main definitions:

- Definition {lit}`findKey`: the search for a line.
- Definition {lit}`parseArgs`: the loop over the arguments of a line.
- Definition {lit}`loadContext`: the request behind a text.
-/

namespace PoundDreverHall
namespace Server

/-! ## Strings -/

/-- The C string in a buffer: everything up to the first {lit}`'\0'`. -/
def cString (buff : List Char) : List Char :=
  buff.takeWhile (· ≠ '\x00')

/-- The loop of `find_key`.  The flag says whether the text is at the beginning of a line. -/
def findKeyFrom (key : List Char) : Bool → List Char → Option (List Char)
  | _, [] => none
  | start, c :: cs =>
      if start && key.isPrefixOf (c :: cs) then some ((c :: cs).drop key.length)
      else findKeyFrom key (c = '\n') cs

/-- `find_key`: what follows the key in the first line that begins with it, and all lines
after. -/
def findKey (src key : List Char) : Option (List Char) :=
  findKeyFrom key true src

/-! ## Numbers -/

/-- `isspace`. -/
def isSpace (c : Char) : Bool :=
  c = ' ' || c = '\t' || c = '\n' || c = '\x0b' || c = '\x0c' || c = '\r'

/-- An optional sign, and the rest of the text. -/
def takeSign : List Char → List Char × List Char
  | '-' :: cs => (['-'], cs)
  | '+' :: cs => (['+'], cs)
  | cs => ([], cs)

/-- The sign and the digits of an integer after white space, and the rest of the text. -/
def scanInteger (text : List Char) : Option (List Char × List Char × List Char) :=
  let (sign, text) := takeSign (text.dropWhile isSpace)
  let digits := text.takeWhile Char.isDigit
  if digits = [] then none else some (sign, digits, text.dropWhile Char.isDigit)

/-- The value of `strtol`; {lit}`long` has 32 bits. -/
def longValue (sign digits : List Char) : BitVec 32 :=
  let n := Nat.ofDigitChars 10 digits 0
  if sign = ['-'] then (if 2 ^ 31 < n then BitVec.intMin 32 else -BitVec.ofNat 32 n)
  else if 2 ^ 31 ≤ n then BitVec.intMax 32
  else BitVec.ofNat 32 n

/-- The value of `strtoul`; a number that does not fit becomes the largest one. -/
def unsignedLongValue (sign digits : List Char) : BitVec 32 :=
  let n := Nat.ofDigitChars 10 digits 0
  if 2 ^ 32 ≤ n then BitVec.allOnes 32
  else if sign = ['-'] then -BitVec.ofNat 32 n
  else BitVec.ofNat 32 n

/-- `strtol` in base 10; {lit}`none` if there is no number. -/
def strtol (text : List Char) : Option (BitVec 32 × List Char) :=
  (scanInteger text).map fun (sign, digits, rest) => (longValue sign digits, rest)

/-- `strtoul` in base 10; {lit}`none` if there is no number. -/
def strtoul (text : List Char) : Option (BitVec 32 × List Char) :=
  (scanInteger text).map fun (sign, digits, rest) => (unsignedLongValue sign digits, rest)

/-- Digits with at most one point among them, and the rest of the text. -/
def scanMantissa (digit : Char → Bool) (text : List Char) : Option (List Char × List Char) :=
  let whole := text.takeWhile digit
  match text.dropWhile digit with
  | '.' :: cs =>
      let fraction := cs.takeWhile digit
      if whole = [] ∧ fraction = [] then none
      else some (whole ++ '.' :: fraction, cs.dropWhile digit)
  | rest => if whole = [] then none else some (whole, rest)

/-- An exponent, if the text begins with one, and the rest of the text. -/
def scanExponent (mark : Char) (text : List Char) : List Char × List Char :=
  match text with
  | [] => ([], [])
  | c :: cs =>
      let (sign, cs') := takeSign cs
      let digits := cs'.takeWhile Char.isDigit
      if c.toLower = mark ∧ digits ≠ [] then (c :: sign ++ digits, cs'.dropWhile Char.isDigit)
      else ([], text)

/-- A decimal number, and the rest of the text. -/
def scanDecimal (text : List Char) : Option (List Char × List Char) :=
  (scanMantissa Char.isDigit text).map fun (mantissa, rest) =>
    let (exponent, rest) := scanExponent 'e' rest
    (mantissa ++ exponent, rest)

/-- A hexadecimal digit. -/
def isHexDigit (c : Char) : Bool :=
  c.isDigit || ('a' ≤ c.toLower && c.toLower ≤ 'f')

/-- A hexadecimal number, and the rest of the text. -/
def scanHexadecimal (text : List Char) : Option (List Char × List Char) :=
  match text with
  | '0' :: x :: cs =>
      if x.toLower = 'x' then
        (scanMantissa isHexDigit cs).map fun (mantissa, rest) =>
          let (exponent, rest) := scanExponent 'p' rest
          ('0' :: x :: mantissa ++ exponent, rest)
      else none
  | _ => none

/-- The word {lit}`word` in upper or lower case, and the rest of the text. -/
def scanWord (word text : List Char) : Option (List Char × List Char) :=
  if (text.take word.length).map Char.toLower = word then
    some (text.take word.length, text.drop word.length)
  else none

/-- Infinity, and the rest of the text. -/
def scanInfinity (text : List Char) : Option (List Char × List Char) :=
  scanWord ['i', 'n', 'f', 'i', 'n', 'i', 't', 'y'] text <|> scanWord ['i', 'n', 'f'] text

/-- Not a number, with an optional tag in parentheses, and the rest of the text. -/
def scanNan (text : List Char) : Option (List Char × List Char) :=
  (scanWord ['n', 'a', 'n'] text).map fun (word, rest) =>
    match rest with
    | '(' :: cs =>
        let tag := cs.takeWhile fun c => c.isAlphanum || c = '_'
        match cs.drop tag.length with
        | ')' :: rest' => (word ++ '(' :: tag ++ [')'], rest')
        | _ => (word, rest)
    | _ => (word, rest)

/-- The text of a floating-point number after white space, and the rest of the text. -/
def scanFloat (text : List Char) : Option (List Char × List Char) :=
  let (sign, text) := takeSign (text.dropWhile isSpace)
  (scanInfinity text <|> scanNan text <|> scanHexadecimal text <|> scanDecimal text).map
    fun (number, rest) => (sign ++ number, rest)

section Context

variable {F : Type} [MixedPrecision F]

/-- `strtof`; {lit}`none` if there is no number. -/
def strtof (text : List Char) : Option (F × List Char) :=
  (scanFloat text).map fun (number, rest) => (MixedPrecision.ofText number, rest)

/-! ## `load_context` -/

/-- The loop of `parse_floats`, `parse_ints` and `parse_uints`, for at most {lit}`max` more
arguments. -/
def parseArgs {α : Type} (number : List Char → Option (α × List Char)) :
    ℕ → List Char → List α
  | 0, _ => []
  | max + 1, line =>
      if line = [] then []
      else
        match number line with
        | none => []
        | some (v, ',' :: rest) => v :: parseArgs number max rest
        | some (v, _) => [v]

/-- `parse_floats`. -/
def parseFloats (line : List Char) : List F := parseArgs strtof 64 line

/-- `parse_ints`. -/
def parseInts (line : List Char) : List (BitVec 32) := parseArgs strtol 10 line

/-- `parse_uints`. -/
def parseUints (line : List Char) : List (BitVec 32) := parseArgs strtoul 10 line

theorem length_parseArgs_le {α : Type} (number : List Char → Option (α × List Char)) (max : ℕ)
    (line : List Char) : (parseArgs number max line).length ≤ max := by
  induction max generalizing line with
  | zero => exact Nat.le_refl 0
  | succ max ih =>
      rw [parseArgs]
      split_ifs with hline
      · exact Nat.zero_le _
      · split
        · exact Nat.zero_le _
        · exact Nat.succ_le_succ (ih _)
        · exact Nat.succ_le_succ (Nat.zero_le _)

/-- A request as it was parsed. -/
structure LoadedCtx (F : Type) extends CmdCtx F where
  name : List Char
  intArgs : ℕ → BitVec 32
  numInts : ℕ
  numUints : ℕ

/-- A line of arguments; without the line there are none. -/
def argsOf {α : Type} (parse : List Char → List α) (text key : List Char) : List α :=
  match findKey text key with
  | some line => parse line
  | none => []

theorem length_argsOf_le {α : Type} {parse : List Char → List α} {max : ℕ}
    (h : ∀ line, (parse line).length ≤ max) (text key : List Char) :
    (argsOf parse text key).length ≤ max := by
  unfold argsOf
  split
  · exact h _
  · exact Nat.zero_le _

/-- `load_context`; {lit}`none` if there is no command. -/
def loadContext (text : List Char) : Option (LoadedCtx F) :=
  (findKey text ['C', 'M', 'D', ':']).map fun cmd =>
    let floats : List F := argsOf parseFloats text ['F', ':']
    let ints := argsOf parseInts text ['I', ':']
    let uints := argsOf parseUints text ['U', ':']
    { name := (cmd.takeWhile (· ≠ '\n')).take 255
      floatArgs := fun i => floats.getD i (SinglePrecision.lit 0)
      intArgs := fun i => ints.getD i 0#32
      uintArgs := fun i => uints.getD i 0#32
      numFloats := floats.length
      numInts := ints.length
      numUints := uints.length
      numFloats_le := length_argsOf_le (length_parseArgs_le strtof 64) text ['F', ':'] }

end Context

end Server
end PoundDreverHall
