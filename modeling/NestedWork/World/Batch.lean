import NestedWork.World.Run

/-!
# Batches

Committing several units at once with a bounded number of workers.

## Implementation notes

Workers take the positions of the list from one shared counter, each on a thread of its own,
until the counter is past the end. Every worker keeps what it has found with the position,
and the outcomes are put in the order of the positions in the end.
-/

namespace NestedWork

/-- The outcome of committing one unit of a batch. -/
structure CommitOutcome where
  unit : String
  result : Except Violation (Response Unit)

namespace CommitOutcome

/-- The unit committed. -/
def isCommitted (o : CommitOutcome) : Bool :=
  match o.result with
  | .ok r => r.isData
  | .error _ => false

end CommitOutcome

/-- How far a worker has come. -/
inductive WorkerStage where
  /-- It is about to take the next position. -/
  | claiming
  /-- It has taken a position and is about to commit the unit there. -/
  | claimed (position : Nat)
  /-- It commits the unit with an identifier at a position. -/
  | committing (position : Nat) (unit : String) (operation : Nat)
  | finished
deriving DecidableEq, Repr

/-- A worker of a batch: its thread, its stage, and the outcomes it has found. -/
structure Worker where
  thread : Nat
  stage : WorkerStage
  found : List (Nat × CommitOutcome)

/-- A batch of units and the workers that commit them. -/
structure Batch where
  units : List Nat
  /-- The next position that a worker takes. -/
  next : Nat
  workers : List Worker

/-- Inserts an entry before the first that has a later position. -/
def insertByPosition {α : Type} (entry : Nat × α) : List (Nat × α) → List (Nat × α)
  | [] => [entry]
  | e :: rest =>
    if entry.1 < e.1 then entry :: e :: rest else e :: insertByPosition entry rest

/-- The entries in the order of their positions. -/
def sortByPosition {α : Type} (entries : List (Nat × α)) : List (Nat × α) :=
  entries.foldr insertByPosition []

namespace Batch

/-- The number of workers of a batch: as many as are allowed, and no more than units. -/
def workerCount (units : List Nat) (options : TransactionOptions) : Nat :=
  min options.parallelism units.length

/-- A batch whose workers run on the given threads. -/
def create (units : List Nat) (threads : List Nat) : Batch where
  units
  next := 0
  workers := threads.map fun thread => ⟨thread, .claiming, []⟩

/-- The batch with one worker changed. -/
def modifyWorker (b : Batch) (k : Nat) (f : Worker → Worker) : Batch :=
  { b with workers := b.workers.modify k f }

/-- The next step of a worker. A worker that is committing waits for its operation. -/
def step (w : World) (b : Batch) (k : Nat) : World × Batch :=
  match b.workers[k]? with
  | none => (w, b)
  | some worker =>
    match worker.stage with
    | .claiming =>
      let stage := if b.next < b.units.length then .claimed b.next else .finished
      (w, { b with next := b.next + 1 }.modifyWorker k fun x => { x with stage })
    | .claimed position =>
      match b.units[position]? with
      | none => (w, b)
      | some u =>
        let unit := match w.units[u]? with
          | some x => x.id
          | none => ""
        (w.beginCommit u worker.thread,
          b.modifyWorker k fun x =>
            { x with stage := .committing position unit w.operations.length })
    | .committing position unit operation =>
      match (w.operations[operation]?).map Operation.stage with
      | some (.done (.commit result)) =>
        (w, b.modifyWorker k fun x =>
          { x with stage := .claiming, found := x.found ++ [(position, ⟨unit, result⟩)] })
      | _ => (w, b)
    | .finished => (w, b)

/-- Every worker has finished. -/
def isFinished (b : Batch) : Bool := b.workers.all fun x => x.stage == .finished

/-- What all workers have found, in the order of the units. -/
def outcomes (b : Batch) : List CommitOutcome :=
  (sortByPosition (b.workers.flatMap Worker.found)).map Prod.snd

end Batch

end NestedWork
