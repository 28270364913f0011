import NestedWork.Session.Script
import NestedWork.World.Batch

/-!
# Reports

What a session tells of its steps: their results, the events in between, and the state after.
-/

namespace NestedWork.Session

/-- What is told of a unit that has not been dropped. -/
structure UnitDescription where
  options : TransactionOptions
  parent : Option String
  status : Status
  capability : String

/-- What is told of a unit and its place in its tree. -/
structure Description where
  isRoot : Bool
  ancestors : List String
  rootName : String
  onOwnThread : Bool
  options : TransactionOptions
  status : Status
  disposed : Bool
  hasTransaction : Bool
  held : Option UnitDescription

/-- The shape of a transaction's local identifier. -/
structure IdentifierShape where
  parts : Nat
  ulidLength : Nat
  isLowerCase : Bool
  sequence : Nat

/-- The result of a step. -/
inductive Result where
  | nothing
  | flag (b : Bool)
  | ok
  | violation (v : Violation)
  | badSettings (e : Settings.TextError)
  | commit (r : Except Violation (Response Unit))
  | workInfo (i : Option Information)
  | info (i : Information)
  | aborted (a : Aborted)
  | issued (mode : DependentMode)
  | description (d : Description)
  | outcomes (list : List CommitOutcome) (withinLimit : Bool)
  | shape (s : IdentifierShape)
  | text (s : String)
  | entered
  | ended (yes : Bool)
  /-- The step does not make sense in its session. -/
  | misuse (why : String)

/-- The work of a unit as its capability sees it. -/
structure WorkEvent where
  kind : ScopeKind
  timeout : Duration
  ownThread : Bool
  scopeThread : Bool
  status : Status
  localId : String
  transactionStatus : Status
  isolation : IsolationLevel
  /-- The dependents outstanding, unless units were at work side by side. -/
  outstanding : Option Nat
  /-- The thread that the capability ran on. -/
  thread : Nat

/-- Something that happens in a session, without who reports it. -/
inductive Happening where
  | work (e : WorkEvent)
  | scope (text : String)
  | rollback
  | dispose
  /-- A scripted manager is asked or told of a unit. -/
  | question (q : Question) (unit : String) (status : Status) (disposed : Bool)
  /-- A scripted manager is told of a new unit. -/
  | opened (depth : Nat) (status : Status)
  | prepare (info : Information)
  | outcome (o : Outcome) (info : Information)
  /-- A step of a callback is done. -/
  | callback (word : String) (r : Result)

/-- Something that happens in a session. -/
structure Event where
  reporter : String
  happening : Happening

/-- What can be seen of a unit. -/
structure UnitState where
  name : String
  status : Status
  disposed : Bool
  hasTransaction : Bool
  timeout : Duration

/-- What can be seen of a transaction. -/
structure TransactionState where
  name : String
  status : Status
  abortReason : Option AbortReason
  outstanding : Nat
  issued : Nat
  timeout : Duration

/-- What can be seen after a step. -/
structure Snapshot where
  units : List UnitState
  transactions : List TransactionState
  /-- The number of units that each registry keeps. -/
  kept : List (String × Nat)

/-- The report of one step of a session. -/
structure Entry where
  result : Result
  /-- The result of the task that was waited for after the step. -/
  awaited : Option Result
  events : List Event
  snapshot : Snapshot

end NestedWork.Session
