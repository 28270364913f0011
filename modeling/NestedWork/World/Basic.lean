import NestedWork.Response
import NestedWork.Transaction.Call

/-!
# The world of units of work

Units of work, the transactions they share, their ambient managers, and the operations under
way on them.

## Implementation notes

Units, transactions, managers and operations are named by their place in a list, and nothing
is ever removed. A unit knows its ancestors, nearest first, from the moment it is opened.

The transaction of a tree belongs to the root. The root's slot holds one handle on it and a
running commit of the root holds another. The transaction is given up with the last of them.

An operation runs on by itself until it needs an answer: from the ambient manager, from the
unit's own persistence capability, or from the call it has made on the transaction.
-/

namespace NestedWork

/-- What a root holds of the transaction of its tree. -/
inductive Slot where
  /-- Nothing yet. The first commit that is let through opens the transaction. -/
  | pending
  | live (transaction : Nat)
  | released
deriving DecidableEq, Repr

/-- A unit of work, as seen by all that share it. -/
structure UnitOfWork where
  id : String
  /-- The identifier drawn for the transaction that the unit may come to open. -/
  transactionId : String
  /-- The ancestors of the unit, nearest first. -/
  lineage : List Nat
  /-- The thread that the unit was opened on. -/
  thread : Nat
  manager : Nat
  options : TransactionOptions
  status : Status
  disposed : Bool
  slot : Slot
  /-- The handles held on the transaction that the unit owns. -/
  handles : Nat
  /-- A commit of the unit is running. -/
  committing : Bool
  /-- The transaction that the running commit works in. -/
  current : Option Nat

namespace UnitOfWork

/-- A unit without a parent. -/
def isRoot (u : UnitOfWork) : Bool := u.lineage.isEmpty

/-- The direct parent of a unit. -/
def parent? (u : UnitOfWork) : Option Nat := u.lineage.head?

end UnitOfWork

/-- Who decides when units may commit and be disposed. -/
inductive Manager where
  /-- Permits everything. -/
  | permissive
  /-- Keeps the units that were opened and not yet disposed. -/
  | registry (live : List Nat)
  /-- Decides outside this world. -/
  | external
deriving DecidableEq, Repr

/-- How the work of a commit takes part in the transaction. -/
inductive ScopeKind where
  /-- The root's own handle, on the root's thread. -/
  | owned
  /-- A dependent, on any other thread. -/
  | dependent
  /-- The shared handle of a nested unit, on the unit's thread. -/
  | joined
deriving DecidableEq, Repr

/-- The identifier of a kind of scope. -/
def ScopeKind.label : ScopeKind → String
  | owned => "Owned"
  | dependent => "Dependent"
  | joined => "Joined"

/-- What one commit works in. -/
structure Scope where
  transaction : Nat
  kind : ScopeKind
  timeout : Duration
  thread : Nat
  /-- The dependent that keeps the transaction open for this commit. -/
  dependent : Option Nat
  /-- The commit holds a handle of the owner. -/
  owner : Bool
deriving DecidableEq

/-- A call made on a transaction. -/
structure Inner where
  transaction : Nat
  call : Nat
deriving DecidableEq, Repr

/-- What an operation on a unit returns. -/
inductive Answer where
  | commit (result : Except Violation (Response Unit))
  | returned

/-- How far an operation on a unit has come. -/
inductive Stage where
  /-- The manager is asked whether the unit may commit. -/
  | admission
  /-- The capability is at work. -/
  | work (scope : Scope)
  /-- The work failed, and its scope is being left uncompleted. -/
  | leaving (scope : Scope) (error : ResponseError) (inner : Inner)
  /-- The work failed, and its dependent is being given up. -/
  | discarding (scope : Scope) (error : ResponseError) (inner : Inner)
  /-- The transaction that the unit owns is being committed. -/
  | completing (scope : Scope) (inner : Inner)
  /-- The commit is over, and giving up its handle has ended the transaction. -/
  | yielding (result : Response Unit) (inner : Inner)
  /-- The capability rolls back. -/
  | rollback
  /-- The manager is asked whether the unit may be disposed. -/
  | permission (dropping : Bool)
  /-- The capability disposes of its resources. -/
  | disposal
  /-- The resources are gone, and giving up the handle has ended the transaction. -/
  | surrender (inner : Inner)
  /-- The manager is told that the unit is disposed. -/
  | farewell
  /-- The manager is told that the unit was opened. -/
  | welcome
  | done (answer : Answer)

/-- An operation on a unit, made on some thread. -/
structure Operation where
  unit : Nat
  thread : Nat
  stage : Stage

/-- Everything that units of work share. -/
structure World where
  now : Instant
  /-- The universal time at the zero of the clock. -/
  epoch : Calendar.Timestamp
  transactions : List Transaction
  units : List UnitOfWork
  managers : List Manager
  operations : List Operation

namespace World

/-- A world with the given managers, in which nothing has happened. -/
def initial (managers : List Manager) : World where
  now := ⟨0⟩
  epoch := ⟨0, 0⟩
  transactions := []
  units := []
  managers
  operations := []

/-! ## Parts -/

/-- The world with one unit changed. -/
def modifyUnit (w : World) (u : Nat) (f : UnitOfWork → UnitOfWork) : World :=
  { w with units := w.units.modify u f }

/-- The world with one transaction changed. -/
def modifyTransaction (w : World) (t : Nat) (f : Transaction → Transaction) : World :=
  { w with transactions := w.transactions.modify t f }

/-- The world with one operation moved to another stage. -/
def moveTo (w : World) (c : Nat) (s : Stage) : World :=
  { w with operations := w.operations.modify c fun o => { o with stage := s } }

/-- The world with a further operation. -/
def push (w : World) (o : Operation) : World := { w with operations := w.operations ++ [o] }

/-- The root of a unit's tree. -/
def rootOf (w : World) (u : Nat) : Nat :=
  match w.units[u]? with
  | some x => x.lineage.getLastD u
  | none => u

/-- A unit is among the ancestors of another. -/
def hasAncestor (w : World) (u ancestor : Nat) : Bool :=
  match w.units[u]? with
  | some x => x.lineage.contains ancestor
  | none => false

/-- The status of a unit is terminal. -/
def isClosed (w : World) (u : Nat) : Bool :=
  match w.units[u]? with
  | some x => x.status.isTerminal
  | none => true

/-- The transaction of a unit's tree, while the root holds it. -/
def liveTransaction? (w : World) (u : Nat) : Option Nat :=
  match w.units[w.rootOf u]? with
  | some x =>
    match x.slot with
    | .live t => some t
    | _ => none
  | none => none

/-! ## Calls on transactions -/

/-- Makes a call on a transaction and takes it as far as it goes by itself. -/
def call (w : World) (t : Nat) (purpose : Purpose) : World × Inner :=
  let i := match w.transactions[t]? with
    | some x => x.calls.length
    | none => 0
  (w.modifyTransaction t fun x => (x.begin purpose).settle w.now i, ⟨t, i⟩)

/-- The point that a call has reached. -/
def point? (w : World) (i : Inner) : Option Point := do
  (← w.transactions[i.transaction]?).point? i.call

/-- The result of a call that has returned. -/
def result? (w : World) (i : Inner) : Option (Except Aborted Unit) := do
  (← w.transactions[i.transaction]?).result? i.call

end World

end NestedWork
