import Mathlib.Logic.Relation
import NestedWork.Proofs.Transaction.Schedule
import NestedWork.Proofs.World.Stage

/-!
# The steps of the world

What one action of the environment does to the world, taken apart into steps that change at most
one unit, one transaction and one operation each.

## Implementation notes

An operation runs on by itself until it needs an answer, so one action may take it through several
stages. Every stage is a step of its own here. Between two steps of one action the world is one
that a slower environment could have seen.

A step carries a label where it matters who takes it: a client that commits a transaction of its
own, or a capability that answers.
-/

namespace NestedWork

namespace Transaction

variable (t : Transaction) (now : Instant)

/-- The transaction after some steps at one time. -/
def runAt (actions : List Action) : Transaction := t.run (actions.map fun a => (now, a))

/-- The steps of a call that goes as far as it does by itself. -/
def strides (i : Nat) : List Action := List.replicate stride (.advance i)

@[simp] theorem runAt_nil : t.runAt now [] = t := rfl

theorem runAt_cons (a : Action) (rest : List Action) :
    t.runAt now (a :: rest) = (t.perform now a).runAt now rest := rfl

theorem runAt_append (first second : List Action) :
    t.runAt now (first ++ second) = (t.runAt now first).runAt now second := by
  rw [runAt, List.map_append, run_append]
  rfl

theorem settle_eq (i : Nat) : t.settle now i = t.runAt now (strides i) := by
  have all (n : Nat) (t : Transaction) :
      settleIn now i n t = t.runAt now (List.replicate n (.advance i)) := by
    induction n generalizing t with
    | zero => rfl
    | succ n ih =>
        rw [settleIn, ih, List.replicate_succ, runAt_cons]
        rfl
  exact all stride t

/-- A call that goes on begins no commit. -/
theorem mild_strides (i : Nat) : ∀ a ∈ strides i, a ≠ .begin .commit := by
  intro a mem
  rw [List.eq_of_mem_replicate mem]
  simp

end Transaction

namespace World

/-! ## Calls -/

/-- The world after some steps of one transaction. -/
def transact (w : World) (n : Nat) (actions : List Transaction.Action) : World :=
  w.modifyTransaction n fun t => t.runAt w.now actions

/-- The number of calls that were made on a transaction. -/
def callsOn (w : World) (n : Nat) : Nat := ((w.transactions[n]?).map fun t => t.calls.length).getD 0

/-- The steps by which a call is made on a transaction and goes as far as it does by itself. -/
def callSteps (w : World) (n : Nat) (purpose : Purpose) : List Transaction.Action :=
  .begin purpose :: Transaction.strides (w.callsOn n)

/-- The steps by which the dependent of a commit is completed. -/
def completion (w : World) (scope : Scope) : List Transaction.Action :=
  match scope.dependent with
  | none => []
  | some k => w.callSteps scope.transaction (.release k true)

theorem call_eq (w : World) (n : Nat) (purpose : Purpose) :
    w.call n purpose = (w.transact n (w.callSteps n purpose), ⟨n, w.callsOn n⟩) := by
  simp only [call, transact, callSteps, callsOn, Transaction.settle_eq, Transaction.runAt_cons]
  cases w.transactions[n]? <;> rfl

theorem mild_callSteps (w : World) (n : Nat) {purpose : Purpose} (other : purpose ≠ .commit) :
    ∀ a ∈ w.callSteps n purpose, a ≠ .begin .commit := by
  intro a mem
  rcases List.mem_cons.mp mem with rfl | mem
  · simpa using other
  · exact Transaction.mild_strides _ a mem

theorem mild_completion (w : World) (scope : Scope) :
    ∀ a ∈ w.completion scope, a ≠ .begin .commit := by
  unfold completion
  split
  · simp
  · exact w.mild_callSteps _ (by simp)

/-- A call that has just been made. -/
def lastCall (w : World) (n : Nat) : Inner := ⟨n, w.callsOn n⟩

/-! ## Turns of an operation -/

/-- The result of a commit is settled: the response, the scope, and what becomes of the unit. -/
inductive Judges (w : World) (u : Nat) :
    Stage → Scope → Response Unit → (UnitOfWork → UnitOfWork) → Prop
  | left {scope : Scope} {e : ResponseError} {inner : Inner} {r : Except Aborted Unit}
      (alone : scope.dependent = none) (returned : w.result? inner = some r) :
      Judges w u (.leaving scope e inner) scope (.error e) id
  | discarded {scope : Scope} {e : ResponseError} {inner : Inner} {r : Except Aborted Unit}
      (returned : w.result? inner = some r) :
      Judges w u (.discarding scope e inner) scope (.error e) id
  | committed {scope : Scope} {inner : Inner} (returned : w.result? inner = some (.ok ())) :
      Judges w u (.completing scope inner) scope (.data ()) id
  | failed {scope : Scope} {inner : Inner} {cause : Aborted}
      (returned : w.result? inner = some (.error cause)) :
      Judges w u (.completing scope inner) scope
        (.error (.failure (w.commitFailure u scope.transaction cause)))
        fun x => { x with status := .aborted }

/-- The handle of a unit on its transaction is given up without ending it. -/
inductive Leaves (w : World) (x : UnitOfWork) : Stage → (UnitOfWork → UnitOfWork) → Prop
  | nested (inside : x.isRoot = false) : Leaves w x .disposal id
  | keep {n : Nat} (root : x.isRoot = true) (live : x.slot = .live n) (shared : ¬ x.handles ≤ 1) :
      Leaves w x .disposal fun x => { x with slot := .released, handles := x.handles - 1 }
  | empty (root : x.isRoot = true) (none : ∀ n, x.slot ≠ .live n) :
      Leaves w x .disposal fun x => { x with slot := .released }
  | surrendered {inner : Inner} {r : Except Aborted Unit} (returned : w.result? inner = some r) :
      Leaves w x (.surrender inner) id

/-- Who takes a step, where that matters. -/
inductive Label where
  | quiet
  /-- A client commits a transaction directly. -/
  | commit (transaction : Nat)
  /-- The capability of an operation's unit answers. -/
  | respond (operation : Nat) (r : Response Unit)

/-- A turn of an operation on a unit: from a stage, what becomes of the unit, the steps of a
transaction, and the stage that is reached. -/
inductive Turns (w : World) (c u : Nat) (x : UnitOfWork) (thread : Nat) :
    Label → Stage → (UnitOfWork → UnitOfWork) → Nat → List Transaction.Action → Stage → Prop
  | refuse :
      Turns w c u x thread .quiet .admission .finish 0 []
        (.done (.commit (.ok (.error (.failure (.notCommittable x.id))))))
  | orphan (gone : ∀ y, w.units[w.rootOf u]? = some y → y.slot = .released) :
      Turns w c u x thread .quiet .admission .finish 0 []
        (.done (.commit (.ok (.error (.failure (.noTransaction x.id))))))
  | enter {y : UnitOfWork} {n : Nat} (root : w.units[w.rootOf u]? = some y)
      (live : y.slot = .live n) :
      Turns w c u x thread .quiet .admission (.enter n) n
        (if thread ≠ x.thread then [.issue .blocking] else [])
        (.work ⟨n, if thread ≠ x.thread then .dependent else if x.isRoot then .owned else .joined,
          x.options.timeout, thread,
          if thread ≠ x.thread then (w.transactions[n]?).map fun t => t.dependents.length else none,
          x.isRoot⟩)
  | fail {scope : Scope} (e : ResponseError) :
      Turns w c u x thread (.respond c (.error e)) (.work scope)
        (fun x => { x with status := .aborted })
        scope.transaction (w.callSteps scope.transaction (.abort .scopeNotCompleted))
        (.leaving scope e (w.lastCall scope.transaction))
  | succeed {scope : Scope} (joined : scope.owner = false) :
      Turns w c u x thread (.respond c (.data ())) (.work scope)
        (fun x => { x with status := .committed, committing := false, current := none })
        scope.transaction (w.completion scope) (.done (.commit (.ok (.data ()))))
  | complete {scope : Scope} (owner : scope.owner = true) :
      Turns w c u x thread (.respond c (.data ())) (.work scope)
        (fun x => { x with status := .committed }) scope.transaction
        (w.completion scope ++ (w.completeDependent scope).callSteps scope.transaction .commit)
        (.completing scope ((w.completeDependent scope).lastCall scope.transaction))
  | discard {scope : Scope} {e : ResponseError} {inner : Inner} {r : Except Aborted Unit} {k : Nat}
      (held : scope.dependent = some k) (returned : w.result? inner = some r) :
      Turns w c u x thread .quiet (.leaving scope e inner) id scope.transaction
        (w.callSteps scope.transaction (.release k false))
        (.discarding scope e (w.lastCall scope.transaction))
  | finish {s : Stage} {scope : Scope} {result : Response Unit} {f : UnitOfWork → UnitOfWork}
      (judges : w.Judges u s scope result f)
      (light : scope.owner = true → ((f x).yield scope).handles ≠ 0) :
      Turns w c u x thread .quiet s (fun x => ((f x).yield scope).finish) 0 []
        (.done (.commit (.ok result)))
  | yield {s : Stage} {scope : Scope} {result : Response Unit} {f : UnitOfWork → UnitOfWork}
      (judges : w.Judges u s scope result f) (owner : scope.owner = true)
      (last : ((f x).yield scope).handles = 0) :
      Turns w c u x thread .quiet s (fun x => (f x).yield scope) scope.transaction
        (w.callSteps scope.transaction (.abort .ownerReleased))
        (.yielding result (w.lastCall scope.transaction))
  | yielded {result : Response Unit} {inner : Inner} {r : Except Aborted Unit}
      (returned : w.result? inner = some r) :
      Turns w c u x thread .quiet (.yielding result inner) .finish 0 []
        (.done (.commit (.ok result)))
  | decline {dropping : Bool} :
      Turns w c u x thread .quiet (.permission dropping) id 0 [] (.done .returned)
  | dispose {dropping : Bool} (first : x.disposed = false) :
      Turns w c u x thread .quiet (.permission dropping) (fun x => { x with disposed := true }) 0 []
        .disposal
  | surrender {n : Nat} (root : x.isRoot = true) (live : x.slot = .live n) (last : x.handles ≤ 1) :
      Turns w c u x thread .quiet .disposal
        (fun x => { x with slot := .released, handles := x.handles - 1 }) n
        (w.callSteps n (.abort .ownerReleased)) (.surrender (w.lastCall n))
  | leave {s : Stage} {f : UnitOfWork → UnitOfWork} (leaves : w.Leaves x s f) :
      Turns w c u x thread .quiet s f 0 []
        (if w.isExternal x.manager then .farewell else .done .returned)

/-! ## Steps -/

/-- The world after a turn of an operation. -/
def evolve (w : World) (c u : Nat) (f : UnitOfWork → UnitOfWork) (n : Nat)
    (actions : List Transaction.Action) (s : Stage) : World :=
  ((w.modifyUnit u f).transact n actions).moveTo c s

/-- A root comes to hold a fresh transaction. -/
def foundAt (w : World) (r : Nat) (y : UnitOfWork) : World :=
  (w.openTransaction y.transactionId y.options).modifyUnit r fun y =>
    { y with slot := .live w.transactions.length, handles := y.handles + 1 }

/-- What a step does to the world. -/
inductive Step (w : World) : Label → World → Prop
  | tick (nanos : Nat) : Step w .quiet { w with now := ⟨w.now.nanos + nanos⟩ }
  | openTransaction (localId : String) (options : TransactionOptions) :
      Step w .quiet (w.openTransaction localId options)
  | transact (n : Nat) (actions : List Transaction.Action)
      (mild : ∀ a ∈ actions, a ≠ .begin .commit) : Step w .quiet (w.transact n actions)
  | commit (n : Nat) : Step w (.commit n) (w.transact n (w.callSteps n .commit))
  | lower {u : Nat} {x : UnitOfWork} {timeout : Duration} (unit : w.units[u]? = some x)
      (lt : ¬ x.options.timeout ≤ timeout) (none : ∀ n, x.slot ≠ .live n) :
      Step w .quiet (w.modifyUnit u fun x => { x with options := x.options.withTimeout timeout })
  | lowerLive {u n : Nat} {x : UnitOfWork} {timeout : Duration} (unit : w.units[u]? = some x)
      (lt : ¬ x.options.timeout ≤ timeout) (live : x.slot = .live n) :
      Step w .quiet
        ((w.modifyUnit u fun x => { x with options := x.options.withTimeout timeout }).transact n
          (w.callSteps n (.lower timeout)))
  | openUnit (o : Opening) (options : TransactionOptions) :
      Step w .quiet { w with units := w.units ++ [w.openedUnit o options] }
  | register (m u : Nat) : Step w .quiet (w.register m u)
  | forget (m u : Nat) : Step w .quiet (w.forget m u)
  | refuse {u : Nat} {x : UnitOfWork} {v : Violation} (unit : w.units[u]? = some x)
      (violates : commitViolation? x = some v) (thread : Nat) :
      Step w .quiet (w.push ⟨u, thread, .done (.commit (.error v))⟩)
  | accept {u : Nat} {x : UnitOfWork} (unit : w.units[u]? = some x)
      (allowed : commitViolation? x = none) (thread : Nat) :
      Step w .quiet
        ((w.modifyUnit u fun x => { x with committing := true }).push ⟨u, thread, .admission⟩)
  | release {u : Nat} {x : UnitOfWork} (unit : w.units[u]? = some x) (kept : x.disposed = false)
      (thread : Nat) (dropping : Bool) :
      Step w .quiet (w.push ⟨u, thread, .permission dropping⟩)
  | push {s : Stage} (aside : s = .rollback ∨ s = .welcome ∨ s = .done .returned)
      (u thread : Nat) : Step w .quiet (w.push ⟨u, thread, s⟩)
  | found {c u thread : Nat} {x y : UnitOfWork}
      (asks : w.operations[c]? = some ⟨u, thread, .admission⟩) (unit : w.units[u]? = some x)
      (root : w.units[w.rootOf u]? = some y) (pending : y.slot = .pending) :
      Step w .quiet (w.foundAt (w.rootOf u) y)
  | turn {l : Label} {c u thread n : Nat} {x : UnitOfWork} {s s' : Stage}
      {f : UnitOfWork → UnitOfWork} {actions : List Transaction.Action}
      (running : w.operations[c]? = some ⟨u, thread, s⟩) (unit : w.units[u]? = some x)
      (turns : w.Turns c u x thread l s f n actions s') :
      Step w l (w.evolve c u f n actions s')
  | answered {c u thread : Nat} {s : Stage} (running : w.operations[c]? = some ⟨u, thread, s⟩)
      (waits : s = .rollback ∨ s = .farewell ∨ s = .welcome) :
      Step w .quiet (w.moveTo c (.done .returned))

/-- Every operation that still deals with its unit has one. -/
def Seated (w : World) : Prop :=
  ∀ {c u thread : Nat} {s : Stage}, w.operations[c]? = some ⟨u, thread, s⟩ → s.isAside = false →
    ∃ x, w.units[u]? = some x

/-- Any number of steps that are nobody's in particular. -/
def Steps : World → World → Prop := Relation.ReflTransGen fun w w' => w.Step .quiet w'

theorem Step.steps {w w' : World} (step : w.Step .quiet w') : w.Steps w' := .single step

end World

end NestedWork
