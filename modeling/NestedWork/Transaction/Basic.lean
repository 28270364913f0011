import NestedWork.Options
import NestedWork.Transaction.Abort
import NestedWork.Transaction.Information

/-!
# Transactions

A transaction as its lock protects it, the handles given out for it, and its critical
sections. Each critical section is one function, and so one atomic step.

## Implementation notes

Calls that take more than one step are kept with the transaction, each with the point it has
reached. A call is never removed, so its place in the list names it for good. The same holds
for dependents.

The list of participants leaves the transaction while a commit asks them to prepare, and
comes back with the decision.
-/

namespace NestedWork

/-- How a dependent bears on a commit that finds it outstanding. -/
inductive DependentMode where
  /-- The commit waits for it. -/
  | blocking
  /-- The commit aborts the transaction. -/
  | nonBlocking
deriving DecidableEq, Repr

/-- The identifier of a mode in data formats and diagnostic texts. -/
def DependentMode.label : DependentMode → String
  | blocking => "BlockCommitUntilComplete"
  | nonBlocking => "RollbackIfNotComplete"

/-- A dependent given out by a transaction. -/
structure Dependent where
  mode : DependentMode
  /-- It was completed or given up. -/
  released : Bool
deriving DecidableEq, Repr

/-- An accepted participant: its place in the order of acceptance, and who it is. -/
structure Enlistment where
  seat : Nat
  participant : Nat
deriving DecidableEq, Repr

/-- What a participant answers when it is asked to prepare. -/
inductive Vote where
  | prepared
  | refused (why : String)
deriving DecidableEq, Repr

/-- What participants are told in the end. -/
inductive Outcome where
  | commit
  | rollback
deriving DecidableEq, Repr

/-- What is left to do once the fate of a transaction is decided: tell the participants, then
return. -/
structure Closing where
  outcome : Outcome
  members : List Enlistment
  result : Except Aborted Unit

/-- What a caller asks of a transaction, where the answer takes more than one step. -/
inductive Purpose where
  | commit
  | abort (reason : AbortReason)
  /-- A dependent is completed, or given up without that. -/
  | release (dependent : Nat) (completed : Bool)
  | lower (timeout : Duration)
deriving DecidableEq, Repr

/-- The point that a call has reached. -/
inductive Point where
  /-- A commit is about to look at the transaction. -/
  | looking
  /-- A commit waits to be woken, at the latest at its deadline. -/
  | parked (deadline : Option Instant)
  /-- A commit holds the participants and has not asked any. -/
  | gathered (members : List Enlistment)
  /-- A commit is asking a participant, after some and before others. -/
  | asking (info : Information) (asked : List Enlistment) (current : Enlistment)
      (unasked : List Enlistment)
  /-- A commit has the votes, up to the first refusal. -/
  | voted (members : List Enlistment) (refusal : Option String)
  /-- The critical section is left and the waiting commits are not yet woken. -/
  | waking (closing : Option Closing)
  /-- The outcome is about to be told. -/
  | closing (closing : Closing)
  /-- A participant is being told the outcome, before others. -/
  | telling (info : Information) (outcome : Outcome) (current : Enlistment)
      (untold : List Enlistment) (result : Except Aborted Unit)
  | finished (result : Except Aborted Unit)

/-- A call on a transaction: what was asked and how far it has come. -/
structure Call where
  purpose : Purpose
  point : Point

/-- A transaction with the handles and calls on it. -/
structure Transaction where
  localId : String
  /-- The place of the transaction among all that were opened. -/
  sequence : Nat
  isolation : IsolationLevel
  createdAt : Calendar.Timestamp
  started : Instant
  status : Status
  abortReason : Option AbortReason
  /-- Outstanding dependents that hold up a commit. -/
  blocking : Nat
  /-- Outstanding dependents that make a commit abort. -/
  nonBlocking : Nat
  /-- All dependents ever given out. -/
  issued : Nat
  /-- A commit is asking the participants to prepare. -/
  committing : Bool
  timeout : Duration
  enlistments : List Enlistment
  /-- All participants ever accepted. -/
  accepted : Nat
  dependents : List Dependent
  calls : List Call

namespace Transaction

/-- A fresh transaction. -/
def create (localId : String) (sequence : Nat) (createdAt : Calendar.Timestamp)
    (started : Instant) (options : TransactionOptions) : Transaction where
  localId
  sequence
  isolation := options.isolation
  createdAt
  started
  status := .active
  abortReason := none
  blocking := 0
  nonBlocking := 0
  issued := 0
  committing := false
  timeout := options.timeout
  enlistments := []
  accepted := 0
  dependents := []
  calls := []

/-- What is told about the transaction at this moment. -/
def information (t : Transaction) : Information :=
  ⟨t.localId, t.createdAt, t.status, t.isolation⟩

/-- The number of dependents that are neither completed nor given up. -/
def outstanding (t : Transaction) : Nat := t.blocking + t.nonBlocking

/-- The error of a caller that finds the transaction closed or in the hands of a commit. -/
def refusal (t : Transaction) : Aborted where
  localId := t.localId
  reason :=
    if t.status = .committed then .alreadyCommitted else t.abortReason.getD .notActive

/-- The instant at which a waiting commit gives up. There is none without a positive timeout,
or where the clock cannot represent it. -/
def deadline (t : Transaction) : Option Instant :=
  if t.timeout ≤ Duration.zero then none else t.started.after? t.timeout

/-! ## Critical sections -/

/-- Accepts a participant, unless the transaction is closed or in the hands of a commit. -/
def enlist (t : Transaction) (participant : Nat) : Except Aborted Transaction :=
  if t.status ≠ .active ∨ t.committing then .error t.refusal
  else .ok { t with
    enlistments := t.enlistments ++ [⟨t.accepted, participant⟩]
    accepted := t.accepted + 1 }

/-- Gives out a dependent, whatever the status. -/
def issue (t : Transaction) (mode : DependentMode) : Transaction :=
  let t : Transaction :=
    { t with issued := t.issued + 1, dependents := t.dependents ++ [⟨mode, false⟩] }
  match mode with
  | .blocking => { t with blocking := t.blocking + 1 }
  | .nonBlocking => { t with nonBlocking := t.nonBlocking + 1 }

/-- Aborts the transaction for a reason and takes its participants out. -/
def strike (t : Transaction) (reason : AbortReason) : Transaction × Point :=
  ({ t with status := .aborted, abortReason := some reason, enlistments := [] },
    .waking (some ⟨.rollback, t.enlistments, .error ⟨t.localId, reason⟩⟩))

/-- Aborts an active transaction and leaves any other alone. -/
def abortIfActive (t : Transaction) (reason : AbortReason) : Transaction × Point :=
  if t.status = .active then t.strike reason else (t, .finished (.ok ()))

/-- Takes a dependent off the counts. -/
def discount (t : Transaction) (k : Nat) (d : Dependent) : Transaction :=
  let t : Transaction := { t with dependents := t.dependents.set k { d with released := true } }
  match d.mode with
  | .blocking => { t with blocking := t.blocking - 1 }
  | .nonBlocking => { t with nonBlocking := t.nonBlocking - 1 }

/-- Releases a dependent that is still outstanding. One that was not completed takes an
active transaction with it. -/
def releaseDependent (t : Transaction) (k : Nat) (completed : Bool) : Transaction × Point :=
  match t.dependents[k]? with
  | some d =>
    if d.released then (t, .finished (.ok ()))
    else if !completed ∧ t.status = .active then (t.discount k d).strike .dependentNotCompleted
    else (t.discount k d, .waking none)
  | none => (t, .finished (.ok ()))

/-- Shortens the timeout. A longer one is ignored. -/
def shorten (t : Transaction) (timeout : Duration) : Transaction × Point :=
  if timeout < t.timeout then ({ t with timeout }, .waking none) else (t, .finished (.ok ()))

/-- What a commit does when it looks at the transaction: fail, abort, go ahead, or wait. -/
def look (t : Transaction) (now : Instant) : Transaction × Point :=
  if t.status ≠ .active then (t, .finished (.error t.refusal))
  else if 0 < t.nonBlocking then t.strike .dependentOutstanding
  else if t.blocking = 0 ∧ !t.committing then
    ({ t with committing := true, enlistments := [] }, .gathered t.enlistments)
  else match t.deadline with
    | some d => if d ≤ now then t.strike (.timedOut t.timeout.millis) else (t, .parked (some d))
    | none => (t, .parked none)

/-- The decision of a commit that has the votes. A refusal aborts the transaction even if it
has been aborted meanwhile. -/
def decideFate (t : Transaction) (members : List Enlistment) (refusal : Option String) :
    Transaction × Point :=
  let t := { t with committing := false, enlistments := members }
  match refusal with
  | some why => t.strike (.votedNo why)
  | none =>
    if t.status ≠ .active then
      ({ t with enlistments := [] },
        .closing ⟨.rollback, members,
          .error ⟨t.localId, t.abortReason.getD .dependentNotCompleted⟩⟩)
    else
      ({ t with status := .committed, enlistments := [] },
        .waking (some ⟨.commit, members, .ok ()⟩))

end Transaction

end NestedWork
