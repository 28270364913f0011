import NestedWork.Json.Level
import NestedWork.Json.Record
import NestedWork.Settings

/-!
# Settings in JSON

Settings are an object of up to three members, each of which may be left out, or an array of
up to three elements.
-/

namespace NestedWork.Settings

open Json

/-- Settings as they are read: each field once its member has been met. -/
structure Partial where
  timeout : Option (Option Int64)
  parallelism : Option (Option UInt64)
  isolation : Option IsolationLevel

/-- A signed integer of 64 bits. -/
def readSigned : Reader Int64 := fun cs => do
  let (n, rest) ← readInteger (-9223372036854775808) 9223372036854775807 cs
  return (Int64.ofInt n, rest)

/-- An unsigned integer of 64 bits. -/
def readUnsigned : Reader UInt64 := fun cs => do
  let (n, rest) ← readInteger 0 18446744073709551615 cs
  return (UInt64.ofNat n.toNat, rest)

/-- The fields of settings, in order. -/
def fields : List (RecordField Partial) :=
  [{ name := "transactionTimeoutMs", isSet := fun p => p.timeout.isSome,
     read := fun p cs => do
      let (v, rest) ← readOptional readSigned cs
      return ({ p with timeout := some v }, rest) },
   { name := "maxDegreeOfParallelism", isSet := fun p => p.parallelism.isSome,
     read := fun p cs => do
      let (v, rest) ← readOptional readUnsigned cs
      return ({ p with parallelism := some v }, rest) },
   { name := "isolationLevel", isSet := fun p => p.isolation.isSome,
     read := fun p cs => do
      let (v, rest) ← readLevel cs
      return ({ p with isolation := some v }, rest) }]

/-- The settings, with the default for every field that was not met. -/
def Partial.settings (p : Partial) : Settings :=
  ⟨p.timeout.getD none, p.parallelism.getD none, p.isolation.getD IsolationLevel.default⟩

/-- Settings at the front of a text. -/
def read : Reader Settings := fun cs => do
  let (p, rest) ← readRecord fields true ⟨none, none, none⟩ (fun _ => true) cs
  return (p.settings, rest)

/-- Why a text does not configure anything. -/
inductive TextError where
  /-- The text does not give settings. -/
  | unread (fault : Fault)
  /-- The text gives settings that cannot be used. -/
  | unusable (error : SettingsError)
deriving DecidableEq, Repr

/-- The usable settings that a text gives. -/
def parse (json : List Char) : Except TextError Settings :=
  match readAll read json with
  | .error fault => .error (.unread fault)
  | .ok s =>
    match s.validate with
    | .error e => .error (.unusable e)
    | .ok () => .ok s

/-- An optional integer. -/
def writeOptional : Option Int → List Char
  | some n => (toString n).toList
  | none => "null".toList

/-- The text of settings. -/
def text (s : Settings) : List Char :=
  ['{'] ++ "\"transactionTimeoutMs\":".toList ++ writeOptional (s.timeout.map Int64.toInt) ++
    ",\"maxDegreeOfParallelism\":".toList ++
    writeOptional (s.parallelism.map fun n => (n.toNat : Int)) ++
    ",\"isolationLevel\":".toList ++ writeLevel s.isolation ++ ['}']

end NestedWork.Settings
