import NestedWork.Text.Diagnostic

/-!
# Violations

The ways in which a caller breaks the contract of a unit of work.
-/

namespace NestedWork

/-- A breach of the contract of a unit of work. -/
inductive Violation where
  /-- The requested timeout is below zero. -/
  | negativeTimeout (timeout : Duration)
  /-- A nested unit asks for another level than its parent has. -/
  | isolationMismatch (parent child : IsolationLevel)
  /-- A commit of the unit is running. -/
  | committing (unit : String)
  | alreadyCommitted (unit : String)
  | alreadyAborted (unit : String)
  | disposed (unit : String)
deriving DecidableEq, Repr

namespace Violation

/-- The identifier of a kind of violation. -/
def label : Violation → String
  | negativeTimeout _ => "NegativeTimeout"
  | isolationMismatch _ _ => "IsolationMismatch"
  | committing _ => "Committing"
  | alreadyCommitted _ => "AlreadyCommitted"
  | alreadyAborted _ => "AlreadyAborted"
  | disposed _ => "Disposed"

/-- The words for a violation. -/
def message : Violation → String
  | negativeTimeout d =>
    "transaction timeout must not be negative, got " ++ toString d.millis ++ "ms"
  | isolationMismatch parent child =>
    "nested units of work must use the isolation level of their parent to join the " ++
      "ambient transaction (parent: " ++ parent.name ++ ", child: " ++ child.name ++ ")"
  | committing unit => s!"unit of work {unit} is currently committing"
  | alreadyCommitted unit => s!"unit of work {unit} has already been committed"
  | alreadyAborted unit => s!"unit of work {unit} has already been aborted"
  | disposed unit => s!"unit of work {unit} has been disposed"

/-- The unit that a violation concerns, if one was opened. -/
def unit? : Violation → Option String
  | negativeTimeout _ | isolationMismatch _ _ => none
  | committing unit | alreadyCommitted unit | alreadyAborted unit | disposed unit => some unit

/-- Every violation is the caller's own. -/
def isContract (_ : Violation) : Bool := true

/-- The diagnostic text of a violation. -/
def diagnostic : Violation → String
  | negativeTimeout d => Diagnostic.record "NegativeTimeout" [("timeout", Diagnostic.duration d)]
  | isolationMismatch parent child =>
    Diagnostic.record "IsolationMismatch" [("parent", parent.label), ("child", child.label)]
  | committing unit => Diagnostic.applied "Committing" unit
  | alreadyCommitted unit => Diagnostic.applied "AlreadyCommitted" unit
  | alreadyAborted unit => Diagnostic.applied "AlreadyAborted" unit
  | disposed unit => Diagnostic.applied "Disposed" unit

end Violation

end NestedWork
