import NestedWork.World.Run

/-!
# Views of an operation

What the stage of an operation says: the scope that a commit works in, the status that its unit
shows meanwhile, and the response that it is going to return.
-/

namespace NestedWork

/-- The status of a unit whose commit is settled. -/
def Response.unitStatus : Response Unit → Status
  | .data _ => .committed
  | .error _ => .aborted

@[simp] theorem Response.isTerminal_unitStatus (r : Response Unit) :
    r.unitStatus.isTerminal = true := by
  cases r <;> rfl

namespace Stage

/-- The scope that a commit works in, until its result is settled. -/
def scope? : Stage → Option Scope
  | work s | leaving s _ _ | discarding s _ _ | completing s _ => some s
  | _ => none

/-- The status that a unit shows while a commit of it is at a stage. -/
def unitStatus? : Stage → Option Status
  | admission => some .inDoubt
  | work _ => some .active
  | leaving _ _ _ | discarding _ _ _ => some .aborted
  | completing _ _ => some .committed
  | yielding r _ => some r.unitStatus
  | _ => none

/-- A commit is running. -/
def isRunning (s : Stage) : Bool := s.unitStatus?.isSome

/-- The response that a commit is going to return, once that is settled. -/
def response? : Stage → Option (Response Unit)
  | leaving _ e _ | discarding _ e _ => some (.error e)
  | yielding r _ | done (.commit (.ok r)) => some r
  | _ => none

theorem response?_done {a : Answer} {r : Response Unit} (settled : (done a).response? = some r) :
    a = .commit (.ok r) := by
  cases a with
  | commit result => cases result <;> cases settled; rfl
  | _ => cases settled

/-- The capability has succeeded: the commit of the transaction is under way or has succeeded. -/
def isPastWork : Stage → Bool
  | completing _ _ => true
  | s => s.response? == some (.data ())

/-- What an operation asks the manager of its unit, or tells it. -/
def question? : Stage → Option Question
  | admission => some .canCommit
  | permission _ => some .canDispose
  | welcome => some .opened
  | farewell => some .disposed
  | _ => none

/-- The operation may be begun on a unit that there is not, or has nothing left to do. -/
def isAside : Stage → Bool
  | rollback | welcome | farewell | done _ => true
  | _ => false

end Stage

namespace UnitOfWork

/-- The unit after its commit has returned. -/
def finish (x : UnitOfWork) : UnitOfWork := { x with committing := false, current := none }

/-- The unit after its commit has given up the handle that it holds. -/
def yield (scope : Scope) (x : UnitOfWork) : UnitOfWork :=
  if scope.owner then { x with handles := x.handles - 1 } else x

/-- The unit once a commit of it has entered a transaction. -/
def enter (n : Nat) (x : UnitOfWork) : UnitOfWork :=
  { x with
    status := .active
    current := some n
    handles := if x.isRoot then x.handles + 1 else x.handles }

variable (scope : Scope) (x : UnitOfWork)

@[simp] theorem id_finish : x.finish.id = x.id := rfl
@[simp] theorem lineage_finish : x.finish.lineage = x.lineage := rfl
@[simp] theorem status_finish : x.finish.status = x.status := rfl
@[simp] theorem slot_finish : x.finish.slot = x.slot := rfl

@[simp] theorem id_yield : (x.yield scope).id = x.id := by unfold yield; split <;> rfl
@[simp] theorem lineage_yield : (x.yield scope).lineage = x.lineage := by
  unfold yield; split <;> rfl
@[simp] theorem status_yield : (x.yield scope).status = x.status := by unfold yield; split <;> rfl
@[simp] theorem slot_yield : (x.yield scope).slot = x.slot := by unfold yield; split <;> rfl
@[simp] theorem committing_yield : (x.yield scope).committing = x.committing := by
  unfold yield; split <;> rfl

end UnitOfWork

end NestedWork
