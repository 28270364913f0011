import NestedWork.Proofs.Transaction.Dealing
import NestedWork.Proofs.World.Handle

/-!
# The dependents of commits

A commit that reaches the capability on a thread other than its unit's works through a dependent of
the transaction of the tree. It takes one as it comes to the capability, and gives it back once the
capability has answered. No other step of an operation does anything with dependents.

## Implementation notes

A step that moves an operation is a turn of that operation, so all that it does to transactions is
the operation's own doing. What the operation does is read off the transactions, as what is new in
them after such steps.
-/

namespace NestedWork

/-- The scope of a commit whose dependent, if it has one, has not begun to be given back. -/
def Stage.lease? : Stage → Option Scope
  | work scope | leaving scope _ _ => some scope
  | _ => none

theorem Stage.lease?_of_isOpening {s : Stage} (opening : s.isOpening = true) : s.lease? = none := by
  cases s <;> first | rfl | cases opening

theorem Stage.ctorIdx_ne {s s' : Stage} {scope : Scope} (leased : s.lease? = some scope)
    (free : s'.lease? = none) : s.ctorIdx ≠ s'.ctorIdx := by
  intro same
  cases s <;> cases leased <;> cases s' <;>
    first | (cases free; done) | simp [Stage.ctorIdx] at same

/-- A scope is that of a commit of a unit on a thread. -/
structure Scope.Suits (scope : Scope) (thread : Nat) (x : UnitOfWork) : Prop where
  thread_eq : scope.thread = thread
  home : thread = x.thread →
    scope.kind = (if x.isRoot then .owned else .joined) ∧ scope.dependent = none
  away : thread ≠ x.thread → scope.kind = .dependent ∧ ∃ k, scope.dependent = some k

namespace World

variable {w w' : World} {l : Label} {c u v m n k thread : Nat} {x x' : UnitOfWork} {s s' : Stage}
  {f : UnitOfWork → UnitOfWork} {actions : List Transaction.Action} {scope : Scope}
  {front : List World}

open Transaction (dealingsOf)

/-! ## What operations do with dependents -/

/-- The dependents that were given out by a transaction. -/
def dependentsOn (w : World) (n : Nat) : Nat :=
  ((w.transactions[n]?).map fun t => t.dependents.length).getD 0

/-- An operation has begun, or has gone from one stage to another. -/
def hasMoved (w w' : World) (c : Nat) : Bool :=
  (w.operations[c]?).map (fun o => o.stage.ctorIdx) !=
    (w'.operations[c]?).map fun o => o.stage.ctorIdx

/-- What an operation does with the dependents of a transaction between two worlds. -/
def dealingsBetween (c n : Nat) (w w' : World) : List Dealing :=
  match w'.transactions[n]? with
  | some t => if w.hasMoved w' c then t.dealingsSince (w.dependentsOn n) (w.callsOn n) else []
  | none => []

/-- What an operation does with the dependents of a transaction in the course of a run. -/
def dealings (c n : Nat) : List World → List Dealing
  | w :: w' :: rest => dealingsBetween c n w w' ++ dealings c n (w' :: rest)
  | _ => []

/-- An operation reaches the capability of its unit, which works in a scope. -/
def Reaches (ws : List World) (c : Nat) (scope : Scope) : Prop :=
  ∃ w ∈ ws, ∃ u, w.need (.operation c) = .work u scope

/-- The scope of a commit whose dependent, if it has one, has not begun to be given back. -/
def leaseOf (w : World) (c : Nat) : Option Scope := (w.operations[c]?).bind fun o => o.stage.lease?

theorem leaseOf_of (running : w.operations[c]? = some ⟨u, thread, s⟩) : w.leaseOf c = s.lease? := by
  simp [leaseOf, running]

theorem need_eq_work_iff : w.need (.operation c) = .work u scope ↔
    ∃ thread, w.operations[c]? = some ⟨u, thread, .work scope⟩ := by
  cases running : w.operations[c]? with
  | none => simp [need, running]
  | some o =>
      obtain ⟨v, thread, s⟩ := o
      cases s with
      | work scope' =>
          simp only [need, running, needOfOperation, Need.work.injEq, Option.some.injEq,
            Operation.mk.injEq, Stage.work.injEq]
          constructor
          · rintro ⟨unit, same⟩
            exact ⟨thread, unit, rfl, same⟩
          · rintro ⟨_, unit, _, same⟩
            exact ⟨unit, same⟩
      | leaving _ _ i | discarding _ _ i | completing _ i | yielding _ i | surrender i =>
          have other := w.needOfCall_ne_work i
          cases need : w.needOfCall i <;> simp_all [World.need, needOfOperation]
      | _ => simp [need, needOfOperation, running]

theorem dealings_concat (c n : Nat) (front : List World) (w w' : World) :
    dealings c n (front ++ [w] ++ [w']) =
      dealings c n (front ++ [w]) ++ dealingsBetween c n w w' :=
  gathered_concat (fun _ => rfl) (fun _ _ _ => rfl) front w w'

theorem reaches_concat : Reaches (front ++ [w']) c scope ↔
    Reaches front c scope ∨ ∃ u, w'.need (.operation c) = .work u scope := by
  simp [Reaches, or_and_right, exists_or]

/-! ## Steps of transactions -/

section Steps

@[simp] theorem dealingsOf_nil (k : Nat) : dealingsOf k [] = [] := rfl

@[simp] theorem issued_callSteps (w : World) (n : Nat) (purpose : Purpose) :
    (w.callSteps n purpose).filterMap Transaction.Action.issued? = [] := rfl

@[simp] theorem begun_callSteps (w : World) (n : Nat) (purpose : Purpose) :
    (w.callSteps n purpose).filterMap Transaction.Action.begun? = [purpose] := rfl

theorem dealingsOf_callSteps (w : World) (n k : Nat) (purpose : Purpose) :
    dealingsOf k (w.callSteps n purpose) = purpose.dealing?.toList := by
  cases h : purpose.dealing? <;> simp [dealingsOf, h]

theorem dealingsOf_completion (w : World) (scope : Scope) (k : Nat) :
    dealingsOf k (w.completion scope) =
      (scope.dependent.map fun k => Dealing.releases k true).toList := by
  unfold completion
  cases scope.dependent with
  | none => rfl
  | some k => exact w.dealingsOf_callSteps ..

/-- A commit of the transaction does nothing with dependents. -/
theorem dealingsOf_complete (w w' : World) (scope : Scope) (k : Nat) :
    dealingsOf k (w.completion scope ++ w'.callSteps n .commit) =
      dealingsOf k (w.completion scope) := by
  simp [dealingsOf, Purpose.dealing?]

theorem dealingsSince_runAt (t : Transaction) (now : Instant) (actions : List Transaction.Action) :
    (t.runAt now actions).dealingsSince t.dependents.length t.calls.length =
      dealingsOf t.dependents.length actions := by
  have since := t.dealingsSince_run (actions.map fun a => (now, a))
  simpa only [Transaction.runAt, List.map_map, Function.comp_def, List.map_id'] using since

theorem isReleased_runAt {t : Transaction} (given : k < t.dependents.length) (now : Instant)
    (completed : Bool) (rest : List Transaction.Action) :
    (t.runAt now (.begin (.release k completed) :: rest)).isReleased k = true := by
  rw [Transaction.runAt_cons]
  exact Transaction.isReleased_run (Transaction.isReleased_begin given now completed) _

theorem transactions_evolve_eq (w : World) (c u : Nat) (f : UnitOfWork → UnitOfWork) (n : Nat)
    (actions : List Transaction.Action) (s : Stage) (m : Nat) :
    (w.evolve c u f n actions s).transactions[m]? =
      (w.transactions[m]?).map fun t => t.runAt w.now (if n = m then actions else []) := by
  by_cases same : n = m
  · simp [evolve, moveTo, transact, modifyTransaction, modifyUnit, same]
  · simp [evolve, moveTo, transact, modifyTransaction, modifyUnit, same]

/-- Nothing is done by steps that give out no dependent and release none. -/
theorem dealingsBetween_of_none (after : w'.transactions[n]? =
      (w.transactions[n]?).map fun t => t.runAt w.now actions)
    (none : ∀ k, dealingsOf k actions = []) : dealingsBetween c n w w' = [] := by
  rw [dealingsBetween, after]
  cases transaction : w.transactions[n]? with
  | none => rfl
  | some t =>
      simp [dependentsOn, callsOn, transaction, dealingsSince_runAt, none]

theorem dealingsBetween_of_eq (same : w'.transactions[n]? = w.transactions[n]?) :
    dealingsBetween c n w w' = [] := by
  have after : w'.transactions[n]? = (w.transactions[n]?).map fun t => t.runAt w.now [] := by
    simp [same]
  exact dealingsBetween_of_none after fun _ => rfl

/-- A turn that goes to another stage does what its steps do. -/
theorem dealingsBetween_evolve {t : Transaction}
    (running : w.operations[c]? = some ⟨u, thread, s⟩) (moved : s.ctorIdx ≠ s'.ctorIdx)
    (transaction : w.transactions[n]? = some t) :
    dealingsBetween c n w (w.evolve c u f n actions s') =
      dealingsOf t.dependents.length actions := by
  have after : (w.evolve c u f n actions s').operations[c]? = some ⟨u, thread, s'⟩ :=
    operations_evolve running
  rw [dealingsBetween, transactions_evolve transaction]
  simp [hasMoved, running, after, moved, dependentsOn, callsOn, transaction, dealingsSince_runAt]

end Steps

/-! ## Turns -/

/-- A dependent that holds up commits was given out by a transaction. -/
def Lent (w : World) (n k : Nat) : Prop :=
  ∃ t, w.transactions[n]? = some t ∧ t.modes[k]? = some .blocking

/-- A dependent of a transaction is completed or given up. -/
def Returned (w : World) (n k : Nat) : Prop :=
  ∃ t, w.transactions[n]? = some t ∧ t.isReleased k = true

/-- A step does nothing with the dependent of a commit. -/
structure Rests (w w' : World) (c : Nat) : Prop where
  same : w'.leaseOf c = w.leaseOf c
  idle : ∀ u scope, w'.need (.operation c) = .work u scope → w.need (.operation c) = .work u scope
  none : ∀ n, dealingsBetween c n w w' = []

/-- A commit comes to the capability, and takes a dependent if its scope has one. -/
structure Takes (w w' : World) (c u thread : Nat) (x : UnitOfWork) (scope : Scope) : Prop where
  waits : w.operations[c]? = some ⟨u, thread, .admission⟩
  unit : w.units[u]? = some x
  works : w'.operations[c]? = some ⟨u, thread, .work scope⟩
  suits : scope.Suits thread x
  apart : ∀ n, n ≠ scope.transaction ∨ scope.dependent = none → dealingsBetween c n w w' = []
  dealt : ∀ k, scope.dependent = some k →
    dealingsBetween c scope.transaction w w' = [.issues k .blocking] ∧
      w'.Lent scope.transaction k

/-- A commit gives its dependent back, if its scope has one. -/
structure Gives (w w' : World) (c : Nat) (scope : Scope) : Prop where
  leased : w.leaseOf c = some scope
  free : w'.leaseOf c = none
  apart : ∀ n, n ≠ scope.transaction ∨ scope.dependent = none → dealingsBetween c n w w' = []
  dealt : ∀ k, scope.dependent = some k → w.Lent scope.transaction k →
    (∃ completed, dealingsBetween c scope.transaction w w' = [.releases k completed]) ∧
      w'.Returned scope.transaction k

/-- What a step does with the dependent of a commit. -/
inductive Leases (w w' : World) (c : Nat) : Prop
  | rests (h : w.Rests w' c)
  | takes {u thread : Nat} {x : UnitOfWork} {scope : Scope} (h : w.Takes w' c u thread x scope)
  | gives {scope : Scope} (h : w.Gives w' c scope)

/-- What a turn does to another transaction than its own, or without dealings, is nothing. -/
theorem dealingsBetween_evolve_of_none (none : m ≠ n ∨ ∀ k, dealingsOf k actions = []) :
    dealingsBetween c m w (w.evolve c u f n actions s') = [] := by
  refine dealingsBetween_of_none (w.transactions_evolve_eq c u f n actions s' m) fun k => ?_
  split
  next same => exact none.resolve_left (fun ne => ne same.symm) k
  next => rfl

section Turn

variable (running : w.operations[c]? = some ⟨u, thread, s⟩)
include running

theorem leases_rests (same : s'.lease? = s.lease?) (idle : ∀ scope, s' ≠ .work scope)
    (none : ∀ k, dealingsOf k actions = []) : w.Leases (w.evolve c u f n actions s') c := by
  have after : (w.evolve c u f n actions s').operations[c]? = some ⟨u, thread, s'⟩ :=
    operations_evolve running
  refine .rests ⟨?_, ?_, fun m => dealingsBetween_evolve_of_none (.inr none)⟩
  · rw [leaseOf_of after, leaseOf_of running, same]
  · intro v scope works
    obtain ⟨thread', there⟩ := need_eq_work_iff.mp works
    cases after.symm.trans there
    exact absurd rfl (idle scope)

theorem leases_gives (leased : s.lease? = some scope) (free : s'.lease? = none)
    (alone : scope.dependent = none → ∀ j, dealingsOf j actions = [])
    (back : ∀ k, scope.dependent = some k → n = scope.transaction ∧ ∃ completed rest,
      actions = .begin (.release k completed) :: rest ∧
        ∀ j, dealingsOf j actions = [.releases k completed]) :
    w.Leases (w.evolve c u f n actions s') c := by
  have after : (w.evolve c u f n actions s').operations[c]? = some ⟨u, thread, s'⟩ :=
    operations_evolve running
  refine .gives ⟨(leaseOf_of running).trans leased, (leaseOf_of after).trans free, ?_, ?_⟩
  · intro m other
    apply dealingsBetween_evolve_of_none
    cases held : scope.dependent with
    | none => exact .inr (alone held)
    | some k => exact .inl ((back k held).1 ▸ other.resolve_right (by simp [held]))
  · intro k held lent
    obtain ⟨rfl, completed, rest, eq, deals⟩ := back k held
    obtain ⟨t, transaction, given⟩ := lent
    refine ⟨⟨completed, ?_⟩, _, transactions_evolve transaction, ?_⟩
    · rw [dealingsBetween_evolve running (Stage.ctorIdx_ne leased free) transaction, deals]
    · have lt : k < t.dependents.length := by
        simpa using (List.getElem?_eq_some_iff.mp given).1
      rw [eq]
      exact isReleased_runAt lt w.now completed rest

/-- The steps of a turn that completes the dependent of its commit. -/
theorem leases_completes (leased : s.lease? = some scope) (free : s'.lease? = none)
    {rest : List Transaction.Action}
    (quiet : ∀ j, dealingsOf j (w.completion scope ++ rest) = dealingsOf j (w.completion scope)) :
    w.Leases (w.evolve c u f scope.transaction (w.completion scope ++ rest) s') c := by
  refine leases_gives running leased free ?_ ?_
  · intro alone j
    rw [quiet, dealingsOf_completion, alone]
    rfl
  · intro k held
    refine ⟨rfl, true, Transaction.strides (w.callsOn scope.transaction) ++ rest, ?_, fun j => ?_⟩
    · rw [completion, held]
      rfl
    · rw [quiet, dealingsOf_completion, held]
      rfl

end Turn

theorem Turns.leases (turns : w.Turns c u x thread l s f n actions s') (order : w.Orderly)
    (running : w.operations[c]? = some ⟨u, thread, s⟩) (unit : w.units[u]? = some x) :
    w.Leases (w.evolve c u f n actions s') c := by
  -- Where a commit settles its result right after the work, its scope has no dependent.
  have settles {scope : Scope} {result : Response Unit} {g : UnitOfWork → UnitOfWork}
      (judges : w.Judges u s scope result g) (free : s'.lease? = none)
      (none : ∀ k, dealingsOf k actions = []) : w.Leases (w.evolve c u f n actions s') c := by
    have idle (scope : Scope) : s' ≠ .work scope := by
      rintro rfl
      cases free
    cases judges with
    | left alone =>
        exact leases_gives running rfl free (fun _ => none) fun k held => by
          cases alone.symm.trans held
    | discarded | committed | failed => exact leases_rests running free idle none
  have abort (k m : Nat) (reason : AbortReason) :
      dealingsOf k (w.callSteps m (.abort reason)) = [] := w.dealingsOf_callSteps ..
  cases turns with
  | @enter y n root live =>
      obtain ⟨t, transaction⟩ : ∃ t, w.transactions[n]? = some t :=
        ⟨_, List.getElem?_eq_getElem (order.held root live).2⟩
      rw [transaction]
      by_cases away : thread ≠ x.thread
      · simp only [if_pos away]
        refine .takes ⟨running, unit, operations_evolve running,
          ⟨rfl, fun home => absurd home away, fun _ => ⟨rfl, _, rfl⟩⟩, ?_, ?_⟩
        · intro m other
          exact dealingsBetween_evolve_of_none (.inl (other.resolve_right (by simp)))
        · intro k held
          obtain rfl := Option.some.inj held
          have issued := Transaction.modes_perform t w.now (.issue .blocking)
          refine ⟨dealingsBetween_evolve running (by simp [Stage.ctorIdx]) transaction,
            _, transactions_evolve transaction, ?_⟩
          simp [Transaction.runAt_cons, issued, Transaction.Action.issued?]
      · simp only [if_neg away]
        exact .takes ⟨running, unit, operations_evolve running,
          ⟨rfl, fun _ => ⟨rfl, rfl⟩, fun other => absurd other away⟩,
          fun m _ => dealingsBetween_evolve_of_none (.inr fun _ => rfl),
          fun k held => by cases held⟩
  | fail => exact leases_rests running rfl (by simp) fun k => abort k _ _
  | @succeed scope =>
      rw [← List.append_nil (w.completion scope)]
      exact leases_completes running rfl rfl fun j => by rw [List.append_nil]
  | complete => exact leases_completes running rfl rfl fun j => w.dealingsOf_complete _ _ j
  | @discard scope e inner r k held =>
      refine leases_gives running rfl rfl ?_ ?_
      · intro alone
        cases held.symm.trans alone
      · intro j held'
        cases held.symm.trans held'
        exact ⟨rfl, false, _, rfl, fun _ => w.dealingsOf_callSteps ..⟩
  | finish judges => exact settles judges rfl fun _ => rfl
  | yield judges => exact settles judges rfl fun k => abort k _ _
  | surrender => exact leases_rests running rfl (by simp) fun k => abort k _ _
  | leave leaves =>
      have free : (if w.isExternal x.manager then Stage.farewell
          else .done .returned).lease? = none := by split <;> rfl
      have idle (scope : Scope) : (if w.isExternal x.manager then Stage.farewell
          else .done .returned) ≠ .work scope := by split <;> simp
      cases leaves <;> exact leases_rests running free idle fun _ => rfl
  | _ => exact leases_rests running rfl (by simp) fun _ => rfl

theorem Step.leases (step : w.Step l w') (order : w.Orderly) (c : Nat) : w.Leases w' c := by
  have still (same : w'.operations[c]? = w.operations[c]?) : w.Leases w' c := by
    refine .rests ⟨by rw [leaseOf, same, leaseOf], fun v scope works => ?_, fun n => ?_⟩
    · rwa [need_eq_work_iff, ← same, ← need_eq_work_iff]
    · rw [dealingsBetween]
      cases w'.transactions[n]? <;> simp [hasMoved, same]
  have aside {u thread : Nat} {s : Stage} (after : w'.operations[c]? = some ⟨u, thread, s⟩)
      (free : w.leaseOf c = none) (free' : s.lease? = none)
      (same : w'.transactions = w.transactions) : w.Leases w' c := by
    refine .rests ⟨by rw [leaseOf_of after, free, free'], fun v scope works => ?_, fun n =>
      dealingsBetween_of_eq (by rw [same])⟩
    obtain ⟨thread', there⟩ := need_eq_work_iff.mp works
    cases after.symm.trans there
    cases free'
  have pushed {o : Operation} (opening : o.stage.isOpening = true)
      (operations : w'.operations = w.operations ++ [o])
      (same : w'.transactions = w.transactions) : w.Leases w' c := by
    rcases Nat.lt_trichotomy c w.operations.length with lt | rfl | gt
    · exact still (by rw [operations, List.getElem?_append_left lt])
    · refine aside (by rw [operations, List.getElem?_concat_length]) ?_
        (Stage.lease?_of_isOpening opening) same
      simp [leaseOf]
    · refine still ?_
      rw [operations, List.getElem?_eq_none (by simp; omega), List.getElem?_eq_none (by omega)]
  cases step with
  | refuse | accept | release => exact pushed rfl rfl rfl
  | push kind => exact pushed (by rcases kind with rfl | rfl | rfl <;> rfl) rfl rfl
  | @turn _ d _ _ _ _ _ _ _ _ running unit turns =>
      by_cases same : d = c
      · subst same
        exact turns.leases order running unit
      · exact still (operations_evolve_ne same)
  | @answered d v thread s running waits =>
      by_cases same : d = c
      · subst same
        have after : (w.moveTo d (.done .returned)).operations[d]? =
            some ⟨v, thread, .done .returned⟩ := by simp [moveTo, running]
        refine aside after ?_ rfl rfl
        rw [leaseOf_of running]
        rcases waits with rfl | rfl | rfl <;> rfl
      · exact still (by simp [moveTo, same])
  | _ => exact still rfl

end World

end NestedWork
