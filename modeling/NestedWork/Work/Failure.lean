import NestedWork.Transaction.Abort

/-!
# Failures

The ways in which a commit of a unit of work is expected to fail.
-/

namespace NestedWork

/-- An expected failure of a unit's commit. -/
inductive Failure where
  /-- The ambient manager does not let the unit commit. -/
  | notCommittable (unit : String)
  /-- The root has given up the transaction of the tree. -/
  | noTransaction (unit : String)
  /-- The transaction of the tree did not commit. -/
  | commitFailed (unit localId : String) (cause : Aborted)
deriving DecidableEq, Repr

namespace Failure

/-- The code of a failure in a response. -/
def code : Failure → String
  | notCommittable _ => "UnitOfWorkNonCommittable"
  | noTransaction _ => "ScopeTransactionIsNull"
  | commitFailed _ _ _ => "CommitFailed"

/-- The unit that failed. -/
def unit : Failure → String
  | notCommittable unit | noTransaction unit | commitFailed unit _ _ => unit

/-- The words for a failure. -/
def message : Failure → String
  | notCommittable unit =>
    s!"unit of work {unit} cannot be committed while its ambient context is still in use"
  | noTransaction unit => s!"unit of work {unit} has no scope transaction"
  | commitFailed unit localId cause =>
    "unit of work " ++ unit ++ " failed to commit transaction " ++ localId ++ ": " ++
      cause.message

/-- The diagnostic text of a failure. -/
def diagnostic : Failure → String
  | notCommittable unit => Diagnostic.applied "UnitOfWorkNonCommittable" unit
  | noTransaction unit => Diagnostic.applied "ScopeTransactionIsNull" unit
  | commitFailed unit localId cause =>
    Diagnostic.record "CommitFailed"
      [("unit_id", unit), ("local_id", Diagnostic.quoted localId), ("source", cause.diagnostic)]

end Failure

end NestedWork
