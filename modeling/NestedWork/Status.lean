/-!
# Status

The states a transaction and a unit of work go through.
-/

namespace NestedWork

/-- Where a transaction or a unit of work stands. -/
inductive Status where
  | inDoubt
  | active
  | committed
  | aborted
deriving DecidableEq, Repr, Inhabited

namespace Status

/-- Every status, in the order of a life. -/
def all : List Status := [inDoubt, active, committed, aborted]

/-- A status that is never left for another attempt. -/
def isTerminal : Status → Bool
  | committed | aborted => true
  | inDoubt | active => false

/-- The words for a status. -/
def words : Status → String
  | inDoubt => "in doubt"
  | active => "active"
  | committed => "committed"
  | aborted => "aborted"

/-- The identifier of a status in data formats and diagnostic texts. -/
def label : Status → String
  | inDoubt => "InDoubt"
  | active => "Active"
  | committed => "Committed"
  | aborted => "Aborted"

/-- The status with a given identifier, matched exactly. -/
def ofLabel? (text : String) : Option Status := all.find? fun s => s.label == text

end Status

end NestedWork
