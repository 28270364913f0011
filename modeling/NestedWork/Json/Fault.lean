/-!
# Faults of a data text

The ways in which reading a value from JSON text fails.

## Implementation notes

A text is read from left to right, so the fault that is met first is the one reported. A
value of the wrong kind is met before anything malformed after it.
-/

namespace NestedWork.Json

/-- Why a JSON text does not give a value. -/
inductive Fault where
  /-- The text stops inside a value. -/
  | ended
  /-- The text is not JSON. -/
  | malformed
  /-- The text is JSON of another shape than the value needs. -/
  | unfit
  /-- The text holds a string where a level is needed, and the string names none. -/
  | unknownLevel (text : String)
deriving DecidableEq, Repr

/-- A step of reading: the value found and the characters after it. -/
abbrev Reader (α : Type) := List Char → Except Fault (α × List Char)

/-- White space between the tokens of a JSON text. -/
def isSpace (c : Char) : Bool := c == ' ' || c == '\n' || c == '\t' || c == '\r'

/-- What follows the white space at the front of a text. -/
def skipSpace (cs : List Char) : List Char := cs.dropWhile isSpace

/-- A decimal digit. -/
def isDigit (c : Char) : Bool := '0' ≤ c && c ≤ '9'

/-- What follows the rest of a word such as `null`, once its first letter is read. -/
def word : List Char → List Char → Except Fault (List Char)
  | [], cs => .ok cs
  | _ :: _, [] => .error .ended
  | w :: ws, c :: cs => if c = w then word ws cs else .error .malformed

end NestedWork.Json
