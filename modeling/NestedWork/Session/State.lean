import NestedWork.Session.Report
import NestedWork.World.Diagnostic

/-!
# The state of a session

The world of a session, the names in it, and the tasks at work.

## Implementation notes

A task is a stack of frames. The frame on top acts. When it returns, its result goes to the
frame below, and the result of the last frame is the result of the task.

A unit that is dropped while an operation on it runs is released by whoever ends the last of
these operations.
-/

namespace NestedWork.Session

/-- A unit by name. -/
structure UnitEntry where
  plan : UnitPlan Step
  unit : Nat
  /-- The session has not dropped it. -/
  held : Bool
  /-- It was dropped while an operation on it was running. -/
  doomed : Bool

/-- A transaction by name. -/
structure TransactionEntry where
  name : String
  transaction : Nat
  /-- The session holds the handle that owns it. -/
  owned : Bool

/-- A dependent by name. -/
structure DependentEntry where
  name : String
  transaction : Nat
  dependent : Nat
  mode : DependentMode

/-- A manager by name, in the order of the world's managers. -/
structure ManagerEntry where
  name : String
  kind : ManagerKind Step

/-- What a task has to do next, or waits for. -/
inductive Frame where
  /-- A step, on a thread. -/
  | step (thread : Nat) (step : Step)
  /-- Something under way in the world, and whether its last need has been announced. -/
  | activity (activity : Activity) (thread : Nat) (announced : Bool)
  /-- A question put to a manager directly. -/
  | question (question : Question) (unit manager thread : Nat) (announced : Bool)
  /-- A callback: who runs it, on which thread, what is left of it, and the word of the step
  that has not returned yet. -/
  | callback (owner : String) (thread : Nat) (steps : List Step) (word : Option String)
  | gate (name : String)
  | meeting (other : String) (deadline : Instant)
  | waiting (task : String) (wait : Wait)
  | pause (task : String) (deadline : Instant)
  /-- A batch and the number of events before it. -/
  | batch (batch limit mark : Nat)
  | worker (batch worker : Nat)
  /-- A result held back until the frames above are done. -/
  | deliver (result : Result)

/-- A task: a stack of frames, and the result once it has ended. -/
structure Task where
  name : String
  /-- The thread that the task begins on. -/
  thread : Nat
  stack : List Frame
  result : Option Result

end NestedWork.Session

namespace NestedWork

/-- A session: a world, its names and its tasks. -/
structure Session where
  world : World
  /-- The names of the threads by their numbers. Unnamed threads have an empty name. -/
  threads : List String
  units : List Session.UnitEntry
  transactions : List Session.TransactionEntry
  dependents : List Session.DependentEntry
  managers : List Session.ManagerEntry
  participants : List (Session.ParticipantPlan Session.Step)
  batches : List Batch
  tasks : List Session.Task
  /-- The gates that have been entered, and those that have been released. -/
  entered : List String
  released : List String
  /-- Those who have announced themselves at a meeting. -/
  announced : List String
  events : List Session.Event

namespace Session

/-- The start of every session: the main thread, one registry and one permissive manager. -/
def initial : Session where
  world := World.initial [.registry [], .permissive]
  threads := ["main"]
  units := []
  transactions := []
  dependents := []
  managers := [⟨"reg", .registry⟩, ⟨"perm", .permissive⟩]
  participants := []
  batches := []
  tasks := []
  entered := []
  released := []
  announced := []
  events := []

/-! ## Names -/

/-- The entry of a unit. -/
def unit? (s : Session) (name : String) : Option UnitEntry :=
  s.units.find? fun e => e.plan.name == name

/-- The entry of a unit by its place in the world. -/
def entryOf? (s : Session) (u : Nat) : Option UnitEntry :=
  s.units.find? fun e => e.unit == u

/-- The name of a unit by its place in the world. -/
def nameOf (s : Session) (u : Nat) : String :=
  match s.entryOf? u with
  | some e => e.plan.name
  | none => ""

/-- The entry of a transaction. -/
def transaction? (s : Session) (name : String) : Option TransactionEntry :=
  s.transactions.find? fun e => e.name == name

/-- The entry of a dependent. -/
def dependent? (s : Session) (name : String) : Option DependentEntry :=
  s.dependents.find? fun e => e.name == name

/-- The place of a manager in the world. -/
def manager? (s : Session) (name : String) : Option Nat :=
  s.managers.findIdx? fun e => e.name == name

/-- The place of a task. -/
def task? (s : Session) (name : String) : Option Task :=
  s.tasks.find? fun t => t.name == name

/-- The number of a thread, which is new on its first use. -/
def threadNumber (s : Session) (name : String) : Session × Nat :=
  match s.threads.findIdx? fun t => t == name with
  | some n => (s, n)
  | none => ({ s with threads := s.threads ++ [name] }, s.threads.length)

/-- The session with a unit's entry changed. -/
def modifyEntry (s : Session) (u : Nat) (f : UnitEntry → UnitEntry) : Session :=
  { s with units := s.units.map fun e => if e.unit == u then f e else e }

/-- What happens is reported. -/
def tell (s : Session) (reporter : String) (h : Happening) : Session :=
  { s with events := s.events ++ [⟨reporter, h⟩] }

/-! ## Stacks -/

/-- The session with one task changed. -/
def modifyTask (s : Session) (k : Nat) (f : Task → Task) : Session :=
  { s with tasks := s.tasks.modify k f }

/-- A frame is put on top of a task. -/
def push (s : Session) (k : Nat) (f : Frame) : Session :=
  s.modifyTask k fun t => { t with stack := f :: t.stack }

/-- The frame on top of a task is taken off. -/
def pop (s : Session) (k : Nat) : Session :=
  s.modifyTask k fun t => { t with stack := t.stack.tail }

/-- The frame on top of a task is replaced. -/
def replace (s : Session) (k : Nat) (f : Frame) : Session := (s.pop k).push k f

/-- A task gets a result for the frame on top, or as its own once no frame is left. -/
def give (s : Session) (k : Nat) (r : Result) : Session :=
  match (s.tasks[k]?).map Task.stack with
  | some (.callback owner thread steps (some word) :: _) =>
    (s.tell owner (.callback word r)).replace k (.callback owner thread steps none)
  | some [] => s.modifyTask k fun t => { t with result := some r }
  | _ => s

/-- The frame on top of a task returns. -/
def finish (s : Session) (k : Nat) (r : Result) : Session := (s.pop k).give k r

/-! ## What can be seen -/

/-- What can be seen of the session. -/
def snapshot (s : Session) : Snapshot where
  units := s.units.filterMap fun e => do
    let x ← s.world.units[e.unit]?
    return ⟨e.plan.name, x.status, x.disposed, (s.world.liveTransaction? e.unit).isSome,
      x.options.timeout⟩
  transactions := s.transactions.filterMap fun e => do
    let t ← s.world.transactions[e.transaction]?
    return ⟨e.name, t.status, t.abortReason, t.outstanding, t.issued, t.timeout⟩
  kept := s.managers.zipIdx.filterMap fun (e, m) =>
    match e.kind with
    | .registry => some (e.name, s.world.keptCount m)
    | _ => none

end Session

end NestedWork
