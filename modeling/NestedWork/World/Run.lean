import NestedWork.World.Commit
import NestedWork.World.Open
import NestedWork.World.Release

/-!
# Runs of the world

What the operations and calls under way need next, how each answer takes them on, and the
worlds that runs can reach.

## Implementation notes

Threads interleave wherever an operation needs an answer or waits, and nowhere else: what an
operation does from one answer to the next is one step, however often it looks at what is shared. A
callback that makes operations of its own before it answers is a thread that does so in between.
-/

namespace NestedWork

/-- Something under way: an operation on a unit, or a call made directly on a transaction. -/
inductive Activity where
  | operation (operation : Nat)
  | call (inner : Inner)
deriving DecidableEq, Repr

/-- What an external manager is asked or told about a unit. -/
inductive Question where
  | canCommit
  | canDispose
  | opened
  | disposed
deriving DecidableEq, Repr

/-- What something under way needs in order to go on. -/
inductive Need where
  /-- The manager of a unit is asked or told. -/
  | manager (question : Question) (unit : Nat)
  /-- The capability of a unit works in a scope. -/
  | work (unit : Nat) (scope : Scope)
  /-- The capability of a unit rolls back. -/
  | rollBack (unit : Nat)
  /-- The capability of a unit disposes of its resources. -/
  | dispose (unit : Nat)
  /-- A participant is asked to prepare. -/
  | prepare (member : Enlistment) (info : Information)
  /-- A participant is told the outcome. -/
  | tell (outcome : Outcome) (member : Enlistment) (info : Information)
  /-- A commit waits to be woken. -/
  | wakening (deadline : Option Instant)
  /-- Its thread runs. -/
  | turn
  /-- It has returned. -/
  | nothing

/-- An answer to what something under way needs. -/
inductive Reply where
  | allowed (yes : Bool)
  | response (r : Response Unit)
  | vote (v : Vote)
  | done

namespace Stage

/-- The call that an operation waits for. -/
def inner? : Stage → Option Inner
  | leaving _ _ i | discarding _ _ i | completing _ i | yielding _ i | surrender i => some i
  | _ => none

end Stage

namespace World

/-- The call on a transaction that something under way waits for or is. -/
def innerOf (w : World) : Activity → Option Inner
  | .call i => some i
  | .operation c => do (← w.operations[c]?).stage.inner?

/-- What a call on a transaction needs. -/
def needOfCall (w : World) (i : Inner) : Need :=
  match w.point? i with
  | some (.parked deadline) => .wakening deadline
  | some (.asking info _ current _) => .prepare current info
  | some (.telling info outcome current _ _) => .tell outcome current info
  | some (.finished _) | none => .nothing
  | some _ => .turn

/-- What an operation on a unit needs. -/
def needOfOperation (w : World) (o : Operation) : Need :=
  match o.stage with
  | .admission => .manager .canCommit o.unit
  | .permission _ => .manager .canDispose o.unit
  | .welcome => .manager .opened o.unit
  | .farewell => .manager .disposed o.unit
  | .work scope => .work o.unit scope
  | .rollback => .rollBack o.unit
  | .disposal => .dispose o.unit
  | .done _ => .nothing
  | .leaving _ _ i | .discarding _ _ i | .completing _ i | .yielding _ i | .surrender i =>
    match w.needOfCall i with
    | .nothing => .turn
    | need => need

/-- What something under way needs in order to go on. -/
def need (w : World) : Activity → Need
  | .call i => w.needOfCall i
  | .operation c =>
    match w.operations[c]? with
    | some o => w.needOfOperation o
    | none => .nothing

/-- An operation goes on once the call it waits for has returned. -/
def resume (w : World) (c : Nat) : World :=
  match w.operations[c]? with
  | none => w
  | some o =>
    match o.stage with
    | .leaving scope error i =>
      match w.result? i with
      | some _ => w.discardDependent c o.unit scope error
      | none => w
    | .discarding scope error i =>
      match w.result? i with
      | some _ => w.yieldHandle c o.unit scope (.error error)
      | none => w
    | .completing scope i =>
      match w.result? i with
      | some r => w.transactionReturned c o.unit scope r
      | none => w
    | .yielding result i =>
      match w.result? i with
      | some _ => w.finishCommit c o.unit result
      | none => w
    | .surrender i =>
      match w.result? i with
      | some _ => w.bidFarewell c o.unit
      | none => w
    | _ => w

/-- What is under way goes on from the call it waits for or is. -/
def resumeActivity (w : World) : Activity → World
  | .call _ => w
  | .operation c => w.resume c

/-- A change to the call that something under way waits for or is, after which it goes on as
far as it does by itself. -/
def onInner (w : World) (a : Activity) (f : Transaction → Nat → Transaction) : World :=
  match w.innerOf a with
  | none => w
  | some i =>
    (w.modifyTransaction i.transaction fun t => (f t i.call).settle w.now i.call).resumeActivity a

/-- The thread of something under way runs. -/
def turn (w : World) (a : Activity) : World := w.onInner a fun t _ => t

/-- A waiting commit looks again. -/
def rouse (w : World) (a : Activity) : World := w.onInner a fun t i => t.rouse i

/-- An operation on a unit is answered. -/
def answerOperation (w : World) (c : Nat) (o : Operation) (reply : Reply) : World :=
  match o.stage, reply with
  | .admission, .allowed yes => w.admitted c o.unit o.thread yes
  | .permission dropping, .allowed yes => w.permitted c o.unit dropping yes
  | .work scope, .response (.data ()) => w.workSucceeded c o.unit scope
  | .work scope, .response (.error e) => w.workFailed c o.unit scope e
  | .disposal, .done => w.resourcesDisposed c o.unit
  | .rollback, .done | .farewell, .done | .welcome, .done => w.moveTo c (.done .returned)
  | _, _ => w

/-- What is under way gets the answer it needs and goes on as far as it does by itself. -/
def answer (w : World) (a : Activity) (reply : Reply) : World :=
  match reply with
  | .vote v => w.onInner a fun t i => t.vote i v
  | .done =>
    match w.innerOf a, a with
    | some _, _ => w.onInner a fun t i => t.acknowledge i
    | none, .operation c =>
      match w.operations[c]? with
      | some o => w.answerOperation c o .done
      | none => w
    | none, .call _ => w
  | reply =>
    match a with
    | .operation c =>
      match w.operations[c]? with
      | some o => w.answerOperation c o reply
      | none => w
    | .call _ => w

/-- A transaction opened on its own. Its place is the number of transactions before it. -/
def openTransaction (w : World) (localId : String) (options : TransactionOptions) : World :=
  { w with transactions := w.transactions ++
      [.create localId w.transactions.length (w.epoch.add w.now) w.now options] }

/-- What a unit tells about the transaction it works in: nothing unless it is committing. -/
def transactionInformation (w : World) (u : Nat) : Except Violation (Option Information) :=
  match w.units[u]? with
  | none => .ok none
  | some x =>
    if x.disposed then .error (.disposed x.id)
    else if x.status ≠ .active then .ok none
    else .ok do (← w.transactions[← x.current]?).information

/-! ## Runs -/

/-- A step of the environment of the world. -/
inductive Action where
  | openUnit (o : Opening)
  | commit (unit thread : Nat)
  | release (unit thread : Nat) (dropping : Bool)
  | rollback (unit thread : Nat)
  | openTransaction (localId : String) (options : TransactionOptions)
  | enlist (transaction participant : Nat)
  | issue (transaction : Nat) (mode : DependentMode)
  | call (transaction : Nat) (purpose : Purpose)
  | answer (activity : Activity) (reply : Reply)
  | turn (activity : Activity)
  | rouse (activity : Activity)
  | tick (nanos : Nat)

/-- The world after one step. -/
def perform (w : World) : Action → World
  | .openUnit o => (w.openUnit o).toOption.getD w
  | .commit u thread => w.beginCommit u thread
  | .release u thread dropping => w.beginRelease u thread dropping
  | .rollback u thread => w.beginRollback u thread
  | .openTransaction localId options => w.openTransaction localId options
  | .enlist t p => w.modifyTransaction t fun x => (x.enlist p).toOption.getD x
  | .issue t mode => w.modifyTransaction t fun x => x.issue mode
  | .call t purpose => (w.call t purpose).1
  | .answer a reply => w.answer a reply
  | .turn a => w.turn a
  | .rouse a => w.rouse a
  | .tick nanos => { w with now := ⟨w.now.nanos + nanos⟩ }

/-- The worlds that runs can reach. -/
inductive Reachable (managers : List Manager) : World → Prop where
  | initial : Reachable managers (initial managers)
  | step {w : World} (h : Reachable managers w) (a : Action) : Reachable managers (w.perform a)

end World

end NestedWork
