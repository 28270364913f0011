import NestedWork.Json.Literal
import NestedWork.Json.Number

/-!
# Values

Passing over a JSON value of any shape, and the readers of the simple values.

## Implementation notes

A value is passed over with a list of the brackets it has opened, innermost first, so the
depth of a text is not limited. Every turn reads at least one character, and a turn is
allowed for each.

A reader that meets a value of the wrong kind reads a number, a string or a word to its end
before it says so, because a fault inside comes first.
-/

namespace NestedWork.Json

/-! ## Passing over a value -/

/-- The two kinds of bracket. -/
inductive Bracket where
  | array
  | object
deriving DecidableEq, Repr

/-- The character that closes a bracket. -/
def Bracket.closing : Bracket → Char
  | .array => ']'
  | .object => '}'

/-- What a text has to go on with. -/
inductive Awaited where
  /-- A value. -/
  | value
  /-- The first entry of the innermost bracket, or its end. -/
  | entryOrEnd
  /-- A comma in the innermost bracket, or its end. -/
  | commaOrEnd
deriving DecidableEq, Repr

/-- What follows the colon after a member's name. -/
def colon (cs : List Char) : Except Fault (List Char) :=
  match skipSpace cs with
  | [] => .error .ended
  | ':' :: rest => .ok rest
  | _ => .error .malformed

/-- What follows the name of a member and its colon. -/
def passName (cs : List Char) : Except Fault (List Char) :=
  match skipSpace cs with
  | [] => .error .ended
  | '"' :: rest => do colon (← passText rest)
  | _ => .error .malformed

/-- What follows a value that is no array and no object. -/
def passScalar : List Char → Except Fault (List Char)
  | [] => .error .ended
  | 'n' :: rest => word ['u', 'l', 'l'] rest
  | 't' :: rest => word ['r', 'u', 'e'] rest
  | 'f' :: rest => word ['a', 'l', 's', 'e'] rest
  | '"' :: rest => passText rest
  | c :: rest => if c = '-' ∨ isDigit c then passNumber (c :: rest) else .error .malformed

/-- What follows the open brackets, given what is awaited in the innermost one. -/
def passFrom : Nat → List Bracket → Awaited → List Char → Except Fault (List Char)
  | 0, _, _, _ => .error .ended
  | turns + 1, opened, .value, cs =>
    match skipSpace cs with
    | '[' :: rest => passFrom turns (.array :: opened) .entryOrEnd rest
    | '{' :: rest => passFrom turns (.object :: opened) .entryOrEnd rest
    | rest => do
      let rest ← passScalar rest
      match opened with
      | [] => .ok rest
      | _ => passFrom turns opened .commaOrEnd rest
  | _ + 1, [], _, cs => .ok cs
  | turns + 1, bracket :: outer, awaited, cs =>
    match skipSpace cs with
    | [] => .error .ended
    | c :: rest =>
      if c = bracket.closing then
        match outer with
        | [] => .ok rest
        | _ => passFrom turns outer .commaOrEnd rest
      else if awaited = .entryOrEnd then
        match bracket with
        | .array => passFrom turns (bracket :: outer) .value (c :: rest)
        | .object => do passFrom turns (bracket :: outer) .value (← passName (c :: rest))
      else if c = ',' then
        match bracket with
        | .array => passFrom turns (bracket :: outer) .value rest
        | .object => do passFrom turns (bracket :: outer) .value (← passName rest)
      else .error .malformed

/-- What follows a value of any shape. -/
def pass (cs : List Char) : Except Fault (List Char) :=
  passFrom (2 * cs.length + 1) [] .value cs

/-! ## Reading a value -/

/-- The fault of a value of the wrong kind. -/
def misfit {α : Type} (cs : List Char) : Except Fault α :=
  match cs with
  | [] => .error .ended
  | 'n' :: rest => do let _ ← word ['u', 'l', 'l'] rest; .error .unfit
  | 't' :: rest => do let _ ← word ['r', 'u', 'e'] rest; .error .unfit
  | 'f' :: rest => do let _ ← word ['a', 'l', 's', 'e'] rest; .error .unfit
  | '"' :: rest => do let _ ← text rest; .error .unfit
  | '[' :: _ => .error .unfit
  | '{' :: _ => .error .unfit
  | c :: rest =>
    if c = '-' ∨ isDigit c then do let _ ← readNumber (c :: rest); .error .unfit
    else .error .malformed

/-- A string. -/
def readText : Reader (List Char) := fun cs =>
  match skipSpace cs with
  | '"' :: rest => text rest
  | rest => misfit rest

/-- An integer between two bounds. -/
def readInteger (least greatest : Int) : Reader Int := fun cs =>
  match skipSpace cs with
  | [] => .error .ended
  | c :: rest =>
    if c = '-' ∨ isDigit c then do
      match ← readNumber (c :: rest) with
      | (.integer n, rest) =>
        if least ≤ n ∧ n ≤ greatest then .ok (n, rest) else .error .unfit
      | (.fraction, _) => .error .unfit
    else misfit (c :: rest)

/-- Nothing for `null`, and otherwise what the given reader finds. -/
def readOptional {α : Type} (read : Reader α) : Reader (Option α) := fun cs =>
  match skipSpace cs with
  | 'n' :: rest => do return (none, ← word ['u', 'l', 'l'] rest)
  | rest => do
    let (value, rest) ← read rest
    return (some value, rest)

/-- The value of a whole text. -/
def readAll {α : Type} (read : Reader α) (cs : List Char) : Except Fault α := do
  let (value, rest) ← read cs
  match skipSpace rest with
  | [] => .ok value
  | _ => .error .malformed

end NestedWork.Json
