import NestedWork.World.Manager

/-!
# Committing units

A commit of a unit of work, from the first refusal it may meet to the fate of the transaction.

## Implementation notes

Each function here runs up to the next point at which the commit needs an answer, in one step. In
particular a commit that is let through looks at the slot of its root twice in one step: for the
transaction of the tree, and, if the unit is the root itself, for the handle of the owner. No answer
is needed between the two. A root that another thread releases just there is outside the runs, so a
root that has found the transaction also has the owner's handle.

The work of a commit that fails is left in a fixed order: the scope is left uncompleted, then
the dependent is given up, then the owner's handle. Each of the three may abort the
transaction, and only the first that finds it active does.
-/

namespace NestedWork

namespace World

/-- The commit returns, and the next one may enter. -/
def finishCommit (w : World) (c u : Nat) (result : Response Unit) : World :=
  (w.modifyUnit u fun x => { x with committing := false, current := none }).moveTo c
    (.done (.commit (.ok result)))

/-- The commit gives up its handle on the transaction, then returns. -/
def yieldHandle (w : World) (c u : Nat) (scope : Scope) (result : Response Unit) : World :=
  if scope.owner then
    let w := w.modifyUnit u fun x => { x with handles := x.handles - 1 }
    match (w.units[u]?).map UnitOfWork.handles with
    | some 0 =>
      let (w, inner) := w.call scope.transaction (.abort .ownerReleased)
      match w.result? inner with
      | some _ => w.finishCommit c u result
      | none => w.moveTo c (.yielding result inner)
    | _ => w.finishCommit c u result
  else w.finishCommit c u result

/-- The failed commit gives up its dependent without completing it. -/
def discardDependent (w : World) (c u : Nat) (scope : Scope) (error : ResponseError) : World :=
  match scope.dependent with
  | none => w.yieldHandle c u scope (.error error)
  | some k =>
    let (w, inner) := w.call scope.transaction (.release k false)
    match w.result? inner with
    | some _ => w.yieldHandle c u scope (.error error)
    | none => w.moveTo c (.discarding scope error inner)

/-- The work failed: the unit is aborted and the scope is left uncompleted. -/
def workFailed (w : World) (c u : Nat) (scope : Scope) (error : ResponseError) : World :=
  let w := w.modifyUnit u fun x => { x with status := .aborted }
  let (w, inner) := w.call scope.transaction (.abort .scopeNotCompleted)
  match w.result? inner with
  | some _ => w.discardDependent c u scope error
  | none => w.moveTo c (.leaving scope error inner)

/-- The failure of a unit whose transaction did not commit. -/
def commitFailure (w : World) (u t : Nat) (cause : Aborted) : Failure :=
  .commitFailed
    (match w.units[u]? with
      | some x => x.id
      | none => "")
    (match w.transactions[t]? with
      | some x => x.localId
      | none => "")
    cause

/-- The commit of the owned transaction returned. -/
def transactionReturned (w : World) (c u : Nat) (scope : Scope)
    (result : Except Aborted Unit) : World :=
  match result with
  | .ok () => w.yieldHandle c u scope (.data ())
  | .error cause =>
    let w := w.modifyUnit u fun x => { x with status := .aborted }
    w.yieldHandle c u scope (.error (.failure (w.commitFailure u scope.transaction cause)))

/-- The dependent of a commit is completed. -/
def completeDependent (w : World) (scope : Scope) : World :=
  match scope.dependent with
  | none => w
  | some k => (w.call scope.transaction (.release k true)).1

/-- The work succeeded: the unit is committed, its dependent is completed, and a root commits
the transaction it owns. -/
def workSucceeded (w : World) (c u : Nat) (scope : Scope) : World :=
  let w := w.modifyUnit u fun x => { x with status := .committed }
  let w := w.completeDependent scope
  if scope.owner then
    let (w, inner) := w.call scope.transaction .commit
    match w.result? inner with
    | some r => w.transactionReturned c u scope r
    | none => w.moveTo c (.completing scope inner)
  else w.finishCommit c u (.data ())

/-- The transaction of a tree, opened by the first that asks for it. There is none once the
root has given it up. -/
def enterTransaction (w : World) (root : Nat) : World × Option Nat :=
  match w.units[root]? with
  | none => (w, none)
  | some x =>
    match x.slot with
    | .released => (w, none)
    | .live t => (w, some t)
    | .pending =>
      let n := w.transactions.length
      let t := Transaction.create x.transactionId n (w.epoch.add w.now) w.now x.options
      let w := { w with transactions := w.transactions ++ [t] }
      (w.modifyUnit root fun x => { x with slot := .live n, handles := x.handles + 1 }, some n)

/-- What a commit of a unit works in, on its thread. Work on a thread other than the unit's
own goes through a dependent, so that the root cannot complete before it. A root takes the owner's
handle from the slot in which the transaction has just been found. -/
def enterScope (w : World) (u : Nat) (x : UnitOfWork) (t thread : Nat) : World × Scope :=
  let (w, dependent) :=
    if thread ≠ x.thread then
      (w.modifyTransaction t fun y => y.issue .blocking,
        (w.transactions[t]?).map fun y => y.dependents.length)
    else (w, none)
  let kind :=
    if thread ≠ x.thread then ScopeKind.dependent
    else if x.isRoot then .owned else .joined
  let w := w.modifyUnit u fun x =>
    { x with
      status := .active
      current := some t
      handles := if x.isRoot then x.handles + 1 else x.handles }
  (w, ⟨t, kind, x.options.timeout, thread, dependent, x.isRoot⟩)

/-- The manager has answered whether the unit may commit. -/
def admitted (w : World) (c u thread : Nat) (allowed : Bool) : World :=
  match w.units[u]? with
  | none => w
  | some x =>
    if !allowed then w.finishCommit c u (.error (.failure (.notCommittable x.id)))
    else
      match w.enterTransaction (w.rootOf u) with
      | (w, none) => w.finishCommit c u (.error (.failure (.noTransaction x.id)))
      | (w, some t) =>
        let (w, scope) := w.enterScope u x t thread
        w.moveTo c (.work scope)

/-- The breach of contract that a commit of the unit would be at this moment. -/
def commitViolation? (x : UnitOfWork) : Option Violation :=
  if x.disposed then some (.disposed x.id)
  else if x.committing then some (.committing x.id)
  else match x.status with
    | .active => some (.committing x.id)
    | .committed => some (.alreadyCommitted x.id)
    | .aborted => some (.alreadyAborted x.id)
    | .inDoubt => none

/-- Begins a commit of a unit. Its place is the number of operations before it. -/
def beginCommit (w : World) (u thread : Nat) : World :=
  match w.units[u]? with
  | none => w
  | some x =>
    match commitViolation? x with
    | some v => w.push ⟨u, thread, .done (.commit (.error v))⟩
    | none =>
      let c := w.operations.length
      let w := w.modifyUnit u fun x => { x with committing := true }
      let w := w.push ⟨u, thread, .admission⟩
      match w.admits? x.manager u with
      | some allowed => w.admitted c u thread allowed
      | none => w

end World

end NestedWork
