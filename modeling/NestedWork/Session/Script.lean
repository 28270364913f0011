import NestedWork.Settings.Json
import NestedWork.World.Run

/-!
# Scripts

The steps of a scripted session on named units, transactions, dependents, managers and
threads.

## Implementation notes

A step may hold the scripts of callbacks, which are steps again. The scripts are a parameter
of everything that holds them, so that the type of steps is a plain nested type.
-/

namespace NestedWork.Session

/-- Where the options of a new unit come from. -/
inductive OptionSource where
  | given (options : TransactionOptions)
  /-- The text of a configuration. -/
  | configured (json : String)

/-- Where the number of workers of a batch comes from. -/
inductive WorkerSource where
  | count (n : Nat)
  /-- The text of a configuration. -/
  | configured (json : String)

/-- A new unit and what its capability does. -/
structure UnitPlan (S : Type) where
  name : String
  parent : Option String
  ambient : String
  options : OptionSource
  onCommit : List S
  onRollback : List S
  onDispose : List S
  /-- What the work of the unit fails with. -/
  failure : Option ResponseError
  /-- The work shows what it is done in. -/
  showsScope : Bool

/-- How a scripted manager answers, and what it does first. -/
structure ManagerPlan (S : Type) where
  canCommit : Bool
  canDispose : Bool
  onCanCommit : List S
  onCanDispose : List S
  onDisposed : List S

/-- The kinds of manager. -/
inductive ManagerKind (S : Type) where
  | registry
  | permissive
  | scripted (plan : ManagerPlan S)

/-- A participant: its vote, and what it does when it is called. -/
structure ParticipantPlan (S : Type) where
  name : String
  vote : Vote
  onPrepare : List S
  onCommit : List S
  onRollback : List S

/-- What a session waits for. -/
inductive Wait where
  /-- A gate is entered. -/
  | gate (name : String)
  /-- The task has ended. -/
  | done
  /-- The unit, if one is named, is committed, and a little time has passed. -/
  | blocked (unit : Option String)

/-- What a diagnostic text is asked of. -/
inductive Subject where
  | unit (name : String)
  | scope (name : String)
  | transaction (name : String)
  | owner (name : String)
  | dependent (name : String)
  | registry (name : String)

/-- What a step does. -/
inductive Deed (S : Type) where
  | nothing
  | addManager (name : String) (kind : ManagerKind S)
  | setManager (name : String) (canCommit canDispose : Option Bool)
  | ask (question : Question) (unit manager : String)
  | contains (unit manager : String)
  | openUnit (plan : UnitPlan S)
  | commit (unit : String)
  | rollback (unit : String)
  | dispose (unit : String)
  | drop (unit : String)
  | info (unit : String)
  | describe (unit : String)
  | hasAncestor (unit other : String)
  | sameScope (unit other : String)
  | commitMany (units : List String) (workers : WorkerSource)
  | openTransaction (name : String) (options : TransactionOptions)
  | commitTransaction (name : String)
  | dropTransaction (name : String)
  | rollbackTransaction (name why : String)
  | transactionInfo (name : String)
  | sameTransaction (name other : String)
  | identify (name : String)
  | enlist (transaction : String) (plan : ParticipantPlan S)
  | issue (transaction name : String) (mode : DependentMode)
  | completeDependent (name : String)
  | dropDependent (name : String)
  | debug (subject : Subject)
  | start (task thread : String) (step : S) (wait : Wait)
  | gate (name : String)
  | release (gate task : String) (wait : Wait)
  | peek (task : String)
  | meet (me other : String)

/-- A step, on a named thread or on the one at hand, with the word it is reported under. -/
inductive Step where
  | mk (thread : Option String) (word : String) (deed : Deed Step)

namespace Step

/-- The thread that a step asks for. -/
def thread? : Step → Option String
  | mk thread _ _ => thread

/-- The word that a step is reported under. -/
def word : Step → String
  | mk _ word _ => word

/-- What a step does. -/
def deed : Step → Deed Step
  | mk _ _ deed => deed

end Step

end NestedWork.Session
