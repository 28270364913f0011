import NestedWork.Isolation
import NestedWork.Json.Value
import NestedWork.Status

/-!
# Levels and statuses in JSON

A level is a string in any of its spellings and is written by its name. A status is a string
that is exactly its identifier, or an object with the identifier as the name of a null.
-/

namespace NestedWork.Json

/-- An isolation level. -/
def readLevel : Reader IsolationLevel := fun cs => do
  let (name, rest) ← readText cs
  match IsolationLevel.parse? name with
  | some level => .ok (level, rest)
  | none => .error (.unknownLevel (String.ofList name))

/-- The string that writes a level. -/
def writeLevel (l : IsolationLevel) : List Char := quote l.name.toList

/-- The status that a string names. -/
def readStatusLabel : Reader Status := fun cs => do
  let (name, rest) ← readText cs
  match Status.ofLabel? (String.ofList name) with
  | some status => .ok (status, rest)
  | none => .error .unfit

/-- What follows a `null`. -/
def readNull (cs : List Char) : Except Fault (List Char) :=
  match skipSpace cs with
  | 'n' :: rest => word ['u', 'l', 'l'] rest
  | rest => misfit rest

/-- A status. -/
def readStatus : Reader Status := fun cs =>
  match skipSpace cs with
  | [] => .error .ended
  | '"' :: rest => readStatusLabel ('"' :: rest)
  | '{' :: rest => do
    let (status, rest) ← readStatusLabel rest
    match skipSpace (← readNull (← colon rest)) with
    | [] => .error .ended
    | '}' :: rest => .ok (status, rest)
    | _ => .error .malformed
  | _ => .error .malformed

/-- The string that writes a status. -/
def writeStatus (s : Status) : List Char := quote s.label.toList

end NestedWork.Json
