import NestedWork.Text.Blank
import NestedWork.Text.Upper

/-!
# Isolation levels

The seven levels, their names and the spellings accepted for them.

## Implementation notes

A spelling is compared after trimming white space and upper-casing. A name of two words may
be written with a space, with an underscore or closed up.
-/

namespace NestedWork

/-- How far concurrent transactions are kept apart. -/
inductive IsolationLevel where
  | serializable
  | repeatableRead
  | readCommitted
  | readUncommitted
  | snapshot
  | chaos
  | unspecified
deriving DecidableEq, Repr, Inhabited

namespace IsolationLevel

/-- Every level, strictest first. -/
def all : List IsolationLevel :=
  [serializable, repeatableRead, readCommitted, readUncommitted, snapshot, chaos, unspecified]

/-- The level of a transaction that asks for none. -/
def default : IsolationLevel := serializable

/-- The words of a level's name. -/
def words : IsolationLevel → List String
  | serializable => ["SERIALIZABLE"]
  | repeatableRead => ["REPEATABLE", "READ"]
  | readCommitted => ["READ", "COMMITTED"]
  | readUncommitted => ["READ", "UNCOMMITTED"]
  | snapshot => ["SNAPSHOT"]
  | chaos => ["CHAOS"]
  | unspecified => ["UNSPECIFIED"]

/-- The name of a level. -/
def name (l : IsolationLevel) : String := String.intercalate " " l.words

/-- The spellings of a level: its words with a space, an underscore or nothing between. -/
def spellings (l : IsolationLevel) : List (List Char) :=
  [" ", "_", ""].map fun between => (String.intercalate between l.words).toList

/-- The identifier of a level in diagnostic texts. -/
def label : IsolationLevel → String
  | serializable => "Serializable"
  | repeatableRead => "RepeatableRead"
  | readCommitted => "ReadCommitted"
  | readUncommitted => "ReadUncommitted"
  | snapshot => "Snapshot"
  | chaos => "Chaos"
  | unspecified => "Unspecified"

/-- The level a text names, whatever its case and its margins. -/
def parse? (text : List Char) : Option IsolationLevel :=
  all.find? fun l => l.spellings.contains (Text.upperText (Text.trim text))

/-- What is said of a text that names no level. -/
def unknown (text : String) : String := s!"unknown isolation level: {text}"

/-- The level a text names, or what is said of a text that names none. -/
def parse (text : String) : Except String IsolationLevel :=
  match parse? text.toList with
  | some level => .ok level
  | none => .error (unknown text)

end IsolationLevel

end NestedWork
