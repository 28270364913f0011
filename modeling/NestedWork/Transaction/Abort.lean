import NestedWork.Text.Diagnostic

/-!
# Aborts

Why a transaction aborts, and the error that a caller is given for it.
-/

namespace NestedWork

/-- Why a transaction aborted. -/
inductive AbortReason where
  /-- A commit waited until the deadline of the transaction. -/
  | timedOut (millis : Int)
  /-- The transaction was rolled back on request. -/
  | rolledBack (why : String)
  /-- The scope of a unit's work was left without being completed. -/
  | scopeNotCompleted
  /-- A dependent was given up without being completed. -/
  | dependentNotCompleted
  /-- A dependent that does not hold up a commit was outstanding at one. -/
  | dependentOutstanding
  /-- A participant voted against the commit. -/
  | votedNo (why : String)
  /-- The transaction had committed before. -/
  | alreadyCommitted
deriving DecidableEq, Repr

namespace AbortReason

/-- The words for a reason. -/
def message : AbortReason → String
  | timedOut ms => s!"timed out after {ms}ms"
  | rolledBack why => s!"rolled back: {why}"
  | scopeNotCompleted => "transaction scope released without completion"
  | dependentNotCompleted => "dependent clone released without completion"
  | dependentOutstanding => "dependent clone still outstanding at commit"
  | votedNo why => s!"enlisted resource refused to prepare: {why}"
  | alreadyCommitted => "transaction already committed"

/-- The diagnostic text of a reason. -/
def diagnostic : AbortReason → String
  | timedOut ms => Diagnostic.record "Timeout" [("timeout_ms", toString ms)]
  | rolledBack why => Diagnostic.applied "Rollback" (Diagnostic.quoted why)
  | scopeNotCompleted => "ScopeNotCompleted"
  | dependentNotCompleted => "DependentNotCompleted"
  | dependentOutstanding => "DependentOutstanding"
  | votedNo why => Diagnostic.applied "EnlistmentVotedNo" (Diagnostic.quoted why)
  | alreadyCommitted => "AlreadyCommitted"

/-- The reason of an owner that goes away before it commits. -/
def ownerReleased : AbortReason := rolledBack "owning handle released before commit"

/-- The reason given to a caller that is too late or too early for the transaction. -/
def notActive : AbortReason := rolledBack "transaction is not active"

end AbortReason

/-- The error of a transaction that did not commit. -/
structure Aborted where
  localId : String
  reason : AbortReason
deriving DecidableEq, Repr

namespace Aborted

/-- The words for the error. -/
def message (a : Aborted) : String :=
  "transaction " ++ a.localId ++ " aborted: " ++ a.reason.message

/-- The same work may succeed in a fresh transaction. -/
def isRetryable (a : Aborted) : Bool :=
  match a.reason with
  | .timedOut _ | .votedNo _ => true
  | _ => false

/-- The diagnostic text of the error. -/
def diagnostic (a : Aborted) : String :=
  Diagnostic.record "TransactionAbortedError"
    [("local_id", Diagnostic.quoted a.localId), ("reason", a.reason.diagnostic)]

end Aborted

end NestedWork
