import NestedWork.Calendar.Timestamp
import NestedWork.Isolation
import NestedWork.Json.Level
import NestedWork.Json.Record
import NestedWork.Status

/-!
# Information on a transaction

What participants and callers are told about a transaction, and its JSON form.
-/

namespace NestedWork

open Json

/-- A transaction as seen at one moment. -/
structure Information where
  localId : String
  createdAt : Calendar.Timestamp
  status : Status
  isolation : IsolationLevel
deriving DecidableEq

namespace Information

/-- Information as it is read: each field once its member has been met. -/
structure Partial where
  localId : Option String
  createdAt : Option Calendar.Timestamp
  status : Option Status
  isolation : Option IsolationLevel

/-- A string that writes a timestamp. -/
def readTimestamp : Reader Calendar.Timestamp := fun cs => do
  let (written, rest) ← readText cs
  match Calendar.Timestamp.parse? written with
  | some t => .ok (t, rest)
  | none => .error .unfit

/-- The fields of information, in order. -/
def fields : List (RecordField Partial) :=
  [{ name := "localIdentifier", isSet := fun p => p.localId.isSome,
     read := fun p cs => do
      let (v, rest) ← readText cs
      return ({ p with localId := some (String.ofList v) }, rest) },
   { name := "creationTime", isSet := fun p => p.createdAt.isSome,
     read := fun p cs => do
      let (v, rest) ← readTimestamp cs
      return ({ p with createdAt := some v }, rest) },
   { name := "status", isSet := fun p => p.status.isSome,
     read := fun p cs => do
      let (v, rest) ← readStatus cs
      return ({ p with status := some v }, rest) },
   { name := "isolationLevel", isSet := fun p => p.isolation.isSome,
     read := fun p cs => do
      let (v, rest) ← readLevel cs
      return ({ p with isolation := some v }, rest) }]

/-- The information, once every field has been met. -/
def Partial.information? (p : Partial) : Option Information := do
  return ⟨← p.localId, ← p.createdAt, ← p.status, ← p.isolation⟩

/-- Information at the front of a text. No field may be missing. -/
def read : Reader Information := fun cs => do
  let (p, rest) ← readRecord fields false ⟨none, none, none, none⟩
    (fun p => p.information?.isSome) cs
  match p.information? with
  | some i => .ok (i, rest)
  | none => .error .unfit

/-- The information that a text gives. -/
def parse (json : List Char) : Except Fault Information := readAll read json

/-- The text of information. -/
def text (i : Information) : List Char :=
  ['{'] ++ "\"localIdentifier\":".toList ++ quote i.localId.toList ++
    ",\"creationTime\":".toList ++ quote i.createdAt.text ++
    ",\"status\":".toList ++ writeStatus i.status ++
    ",\"isolationLevel\":".toList ++ writeLevel i.isolation ++ ['}']

end Information

end NestedWork
