import NestedWork.Json.Value

/-!
# Records

Reading a value of named fields from a JSON object or from a JSON array.

## Implementation notes

An object gives each field at most once, in any order, and its other members are passed over.
An array gives the fields in their own order. What a missing field means is for the record to
say, once for objects and once for arrays.
-/

namespace NestedWork.Json

/-- A field of a record that is read into a value of type `σ`. -/
structure RecordField (σ : Type) where
  name : String
  /-- The field has been read already. -/
  isSet : σ → Bool
  /-- The value with the field read from the front of a text. -/
  read : σ → Reader σ

/-- One member, after the opening quote of its name. -/
def readMember {σ : Type} (fields : List (RecordField σ)) (s : σ) : Reader σ := fun cs => do
  let (name, rest) ← text cs
  match fields.find? fun f => f.name.toList == name with
  | some f => if f.isSet s then .error .unfit else f.read s (← colon rest)
  | none => return (s, ← pass (← colon rest))

/-- The members of an object after its opening brace or after one of its members, and what
follows the closing brace. -/
def readMembers {σ : Type} (fields : List (RecordField σ)) : Nat → Bool → σ → Reader σ
  | 0, _, _, _ => .error .ended
  | turns + 1, first, s, cs =>
    match skipSpace cs with
    | [] => .error .ended
    | '}' :: rest => .ok (s, rest)
    | '"' :: rest =>
      if first then do
        let (s, rest) ← readMember fields s rest
        readMembers fields turns false s rest
      else .error .malformed
    | ',' :: rest =>
      if first then .error .malformed
      else match skipSpace rest with
        | [] => .error .ended
        | '"' :: rest => do
          let (s, rest) ← readMember fields s rest
          readMembers fields turns false s rest
        | _ => .error .malformed
    | _ => .error .malformed

/-- The elements of an array after its opening bracket or after one of its elements, each read
as the next field. The array may stop early only if `short` says so. -/
def readElements {σ : Type} (short : Bool) : List (RecordField σ) → Bool → σ → Reader σ
  | [], _, s, cs => .ok (s, cs)
  | f :: fields, first, s, cs =>
    match skipSpace cs with
    | [] => .error .ended
    | ']' :: rest => if short then .ok (s, ']' :: rest) else .error .unfit
    | c :: rest =>
      if first then do
        let (s, rest) ← f.read s (c :: rest)
        readElements short fields false s rest
      else if c = ',' then
        match skipSpace rest with
        | [] => .error .ended
        | ']' :: _ => .error .malformed
        | rest => do
          let (s, rest) ← f.read s rest
          readElements short fields false s rest
      else .error .malformed

/-- What follows the closing bracket of an array whose elements have been read. -/
def endArray (cs : List Char) : Except Fault (List Char) :=
  match skipSpace cs with
  | [] => .error .ended
  | ']' :: rest => .ok rest
  | _ => .error .malformed

/-- A record written as an object or as an array. -/
def readRecord {σ : Type} (fields : List (RecordField σ)) (short : Bool) (start : σ)
    (complete : σ → Bool) : Reader σ := fun cs =>
  match skipSpace cs with
  | '{' :: rest => do
    let (s, rest) ← readMembers fields rest.length.succ true start rest
    if complete s then .ok (s, rest) else .error .unfit
  | '[' :: rest => do
    let (s, rest) ← readElements short fields true start rest
    return (s, ← endArray rest)
  | rest => misfit rest

end NestedWork.Json
