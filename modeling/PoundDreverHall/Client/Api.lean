import Mathlib.Logic.Function.Basic
import PoundDreverHall.Text.PyString

/-!
# Client - `api.py`

The client sends the text of a request, takes what it receives for the whole reply, and parses
it into a dictionary from names to values.  Every call of the API goes through a wrapper that
raises an error unless the status in that dictionary is 0.  A byte is a character.
-/

namespace PoundDreverHall
namespace Client

open PyString

/-! ## Values -/

/-- What the client uses of Python's {lit}`float`: the conversion of a string, the comparison
with 0, and {lit}`repr`. -/
class PyFloat (D : Type) where
  parse : List Char → Option D
  isZero : D → Bool
  repr : D → List Char

/-- A value of the dictionary. -/
inductive PyValue (D : Type) where
  | int (n : ℤ)
  | float (x : D)
  | str (s : List Char)

/-- The dictionary. -/
abbrev Response (D : Type) : Type :=
  List Char → Option (PyValue D)

section Parse

variable {D : Type} [PyFloat D]

/-- A number if the text is one, the text otherwise. -/
def coerce (val : List Char) : PyValue D :=
  match int val with
  | some n => .int n
  | none =>
      match PyFloat.parse val with
      | some x => .float x
      | none => .str val

/-- One line of the reply; a later line replaces an earlier one with the same key. -/
def parseLine (result : Response D) (line : List Char) : Response D :=
  if ':' ∈ line then
    let key := strip (line.takeWhile (· ≠ ':'))
    let val := strip (line.dropWhile (· ≠ ':')).tail
    Function.update result key (some (coerce val))
  else result

/-- `_parse_response`. -/
def parseResponse (text : List Char) : Response D :=
  (splitlines (strip text)).foldl parseLine fun _ => none

/-! ## `execute_cmd` -/

/-- Decoding as ASCII; other bytes are replaced. -/
def decodeAscii (raw : List Char) : List Char :=
  raw.map fun c => if c.toNat < 128 then c else '\uFFFD'

/-- What `execute_cmd` returns when {lit}`recv` has returned {lit}`raw`. -/
def executeCmd (raw : List Char) : Response D :=
  parseResponse (decodeAscii raw)

/-! ## `api_cmd` -/

/-- The status that the result of a call has. -/
def statusOf (r : Response D) : PyValue D :=
  (r ['s', 't', 'a', 't', 'u', 's']).getD (.int (-1))

/-- Comparison with 0. -/
def PyValue.isZero : PyValue D → Bool
  | .int n => n = 0
  | .float x => PyFloat.isZero x
  | .str _ => false

/-- `str`. -/
def PyValue.toText : PyValue D → List Char
  | .int n => (toString n).toList
  | .float x => PyFloat.repr x
  | .str s => s

/-- `api_cmd`: the wrapper of the function {lit}`name`, whose result has the given status. -/
def apiCmd {α : Type} (name : List Char) (status : α → Option (PyValue D)) (result : α) :
    Except (List Char) α :=
  match status result with
  | none => .error (name ++ ": result has no status field".toList)
  | some status =>
      if status.isZero then .ok result
      else .error (name ++ ": server returned status=".toList ++ status.toText)

/-- The call of a wrapped function of the API, up to the fields besides the status that it copies
from the dictionary. -/
def apiCall (name raw : List Char) : Except (List Char) (Response D) :=
  apiCmd name (fun r => some (statusOf r)) (executeCmd raw)

end Parse

end Client
end PoundDreverHall
