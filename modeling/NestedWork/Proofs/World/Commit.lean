import NestedWork.Proofs.World.Step

/-!
# Commits are made of steps

Every function that takes a commit on, from its beginning to its return, is a run of steps.

## Implementation notes

Each function is taken apart from its end: giving up the handle first, then the dependent, then the
scope. The stage that an operation has left is overwritten by the stage that it reaches, so a
function may be entered before or after its operation has been moved.
-/

namespace NestedWork.World

variable {w : World} {c u n : Nat} {s : Stage}

/-! ## What is overwritten -/

theorem modifyUnit_modifyUnit (w : World) (u : Nat) (f g : UnitOfWork → UnitOfWork) :
    (w.modifyUnit u f).modifyUnit u g = w.modifyUnit u fun x => g (f x) := by
  simp [modifyUnit, List.modify_modify_eq, Function.comp_def]

@[simp] theorem moveTo_moveTo (w : World) (c : Nat) (s s' : Stage) :
    (w.moveTo c s).moveTo c s' = w.moveTo c s' := by
  simp [moveTo, List.modify_modify_eq, Function.comp_def]

@[simp] theorem modifyUnit_moveTo (f : UnitOfWork → UnitOfWork) :
    (w.moveTo c s).modifyUnit u f = (w.modifyUnit u f).moveTo c s := rfl

@[simp] theorem transact_moveTo (actions : List Transaction.Action) :
    (w.moveTo c s).transact n actions = (w.transact n actions).moveTo c s := rfl

@[simp] theorem callSteps_moveTo (purpose : Purpose) :
    (w.moveTo c s).callSteps n purpose = w.callSteps n purpose := rfl

@[simp] theorem lastCall_moveTo : (w.moveTo c s).lastCall n = w.lastCall n := rfl

@[simp] theorem units_moveTo : (w.moveTo c s).units = w.units := rfl

@[simp] theorem result?_moveTo (i : Inner) : (w.moveTo c s).result? i = w.result? i := rfl

theorem modifyUnit_id (w : World) (u : Nat) : w.modifyUnit u id = w := by
  simp [modifyUnit]

@[simp] theorem transact_nil (w : World) (n : Nat) : w.transact n [] = w := by
  have same : w.transactions.modify n (fun t => t.runAt w.now []) = w.transactions :=
    List.modify_id n w.transactions
  rw [transact, modifyTransaction, same]

theorem transact_append (w : World) (n : Nat) (first second : List Transaction.Action) :
    w.transact n (first ++ second) = (w.transact n first).transact n second := by
  simp [transact, modifyTransaction, List.modify_modify_eq, Function.comp_def,
    Transaction.runAt_append]

@[simp] theorem finishCommit_moveTo (result : Response Unit) :
    (w.moveTo c s).finishCommit c u result = w.finishCommit c u result :=
  (w.modifyUnit u .finish).moveTo_moveTo c s _

/-- Giving up the handle comes down to the end of the commit, or to one more call before it. -/
theorem yieldHandle_eq (w : World) (c u : Nat) (scope : Scope) (result : Response Unit) :
    w.yieldHandle c u scope result =
      if scope.owner then
        let w' := w.modifyUnit u (UnitOfWork.yield scope)
        if (w'.units[u]?).map UnitOfWork.handles = some 0 then
          let w'' := w'.transact scope.transaction
            (w'.callSteps scope.transaction (.abort .ownerReleased))
          if (w''.result? (w'.lastCall scope.transaction)).isSome then w''.finishCommit c u result
          else w''.moveTo c (.yielding result (w'.lastCall scope.transaction))
        else w'.finishCommit c u result
      else w.finishCommit c u result := by
  unfold yieldHandle
  cases owner : scope.owner with
  | false => rfl
  | true =>
      have same : UnitOfWork.yield scope = fun x => { x with handles := x.handles - 1 } := by
        funext x
        simp [UnitOfWork.yield, owner]
      simp only [same, call_eq, if_true, lastCall]
      split
      next none =>
        rw [if_pos none]
        split
        next r returned => simp [returned]
        next waiting => simp [waiting]
      next some =>
        rw [if_neg fun none => some none]

@[simp] theorem yieldHandle_moveTo (scope : Scope) (result : Response Unit) :
    (w.moveTo c s).yieldHandle c u scope result = w.yieldHandle c u scope result := by
  simp [yieldHandle_eq]

@[simp] theorem callsOn_moveTo : (w.moveTo c s).callsOn n = w.callsOn n := rfl

@[simp] theorem discardDependent_moveTo (scope : Scope) (e : ResponseError) :
    (w.moveTo c s).discardDependent c u scope e = w.discardDependent c u scope e := by
  simp only [discardDependent, call_eq]
  cases scope.dependent <;> simp

@[simp] theorem commitFailure_moveTo (cause : Aborted) :
    (w.moveTo c s).commitFailure u n cause = w.commitFailure u n cause := rfl

@[simp] theorem transactionReturned_moveTo (scope : Scope) (r : Except Aborted Unit) :
    (w.moveTo c s).transactionReturned c u scope r = w.transactionReturned c u scope r := by
  cases r <;> simp [transactionReturned]

/-! ## From the end to the beginning -/

variable {thread : Nat} {s' : Stage} {x : UnitOfWork} {scope : Scope} {result : Response Unit}
  {f : UnitOfWork → UnitOfWork} {actions : List Transaction.Action}

theorem operations_evolve (running : w.operations[c]? = some ⟨u, thread, s⟩) :
    (w.evolve c u f n actions s').operations[c]? = some ⟨u, thread, s'⟩ := by
  simp [evolve, moveTo, transact, modifyTransaction, modifyUnit, running]

theorem units_evolve (unit : w.units[u]? = some x) :
    (w.evolve c u f n actions s').units[u]? = some (f x) := by
  simp [evolve, moveTo, transact, modifyTransaction, modifyUnit, unit]

/-- A turn that ends in a return takes the operation no further. -/
theorem evolve_finish (w : World) (c u : Nat) (result : Response Unit) :
    w.evolve c u .finish 0 [] (.done (.commit (.ok result))) = w.finishCommit c u result := by
  rw [evolve, transact_nil]
  rfl

/-- The end of a commit is a run of steps. -/
theorem steps_yieldHandle (running : w.operations[c]? = some ⟨u, thread, s⟩)
    (unit : w.units[u]? = some x) (judges : w.Judges u s scope result f) :
    w.Steps ((w.modifyUnit u f).yieldHandle c u scope result) := by
  have shown : ((w.modifyUnit u fun x => (f x).yield scope).units[u]?).map
      UnitOfWork.handles = some ((f x).yield scope).handles := by
    simp [modifyUnit, unit]
  rw [yieldHandle_eq]
  by_cases owner : scope.owner = true
  · rw [if_pos owner, modifyUnit_modifyUnit]
    dsimp only
    rw [shown]
    by_cases last : ((f x).yield scope).handles = 0
    · rw [if_pos (by rw [last])]
      let w₁ := w.evolve c u (fun x => (f x).yield scope) scope.transaction
        (w.callSteps scope.transaction (.abort .ownerReleased))
        (.yielding result (w.lastCall scope.transaction))
      have yield : w.Step .quiet w₁ := .turn running unit (.yield judges owner last)
      split
      next returned =>
        obtain ⟨r, returned⟩ := Option.isSome_iff_exists.mp returned
        have finished : w₁.Step .quiet (w₁.evolve c u .finish 0 [] _) :=
          .turn (operations_evolve running) (units_evolve unit) (.yielded (r := r) returned)
        have same : w₁.finishCommit c u result = _ := finishCommit_moveTo result
        rw [evolve_finish, same] at finished
        exact yield.steps.trans finished.steps
      next => exact yield.steps
    · rw [if_neg (by simpa using last)]
      have finished : w.Step .quiet (w.evolve c u (fun x => ((f x).yield scope).finish) 0 [] _) :=
        .turn running unit (.finish judges fun _ => last)
      rw [evolve, transact_nil, ← modifyUnit_modifyUnit] at finished
      exact finished.steps
  · rw [if_neg owner]
    have same : (fun x => ((f x).yield scope).finish) = fun x => (f x).finish := by
      funext x
      rw [UnitOfWork.yield, if_neg owner]
    have finished : w.Step .quiet (w.evolve c u (fun x => ((f x).yield scope).finish) 0 [] _) :=
      .turn running unit (.finish judges fun h => absurd h owner)
    rw [evolve, transact_nil, same, ← modifyUnit_modifyUnit] at finished
    exact finished.steps

/-- Giving up the dependent of a failed commit, and all that follows, is a run of steps. -/
theorem steps_discardDependent {e : ResponseError} {inner : Inner} {r : Except Aborted Unit}
    (running : w.operations[c]? = some ⟨u, thread, .leaving scope e inner⟩)
    (unit : w.units[u]? = some x) (returned : w.result? inner = some r) :
    w.Steps (w.discardDependent c u scope e) := by
  unfold discardDependent
  split
  next alone =>
    have last := steps_yieldHandle running unit (.left alone returned)
    rwa [modifyUnit_id] at last
  next k held =>
    rw [call_eq]
    let w₁ := w.evolve c u id scope.transaction (w.callSteps scope.transaction (.release k false))
      (.discarding scope e (w.lastCall scope.transaction))
    have discard : w.Step .quiet w₁ := .turn running unit (.discard held returned)
    have eq : w₁ = (w.transact scope.transaction
        (w.callSteps scope.transaction (.release k false))).moveTo c
          (.discarding scope e (w.lastCall scope.transaction)) := by
      simp only [w₁, evolve, modifyUnit_id]
    dsimp only
    split
    next r' finished =>
      have last := steps_yieldHandle (w := w₁) (operations_evolve running) (units_evolve unit)
        (.discarded (r := r') (by rw [eq]; exact finished))
      rw [modifyUnit_id, eq, yieldHandle_moveTo] at last
      rw [eq] at discard
      exact discard.steps.trans last
    next =>
      rw [eq] at discard
      exact discard.steps

/-- What follows the return of the transaction's commit is a run of steps. -/
theorem steps_transactionReturned {inner : Inner} {r : Except Aborted Unit}
    (running : w.operations[c]? = some ⟨u, thread, .completing scope inner⟩)
    (unit : w.units[u]? = some x) (returned : w.result? inner = some r) :
    w.Steps (w.transactionReturned c u scope r) := by
  cases r with
  | ok =>
      have last := steps_yieldHandle running unit (.committed returned)
      rwa [modifyUnit_id] at last
  | error cause =>
      have last := steps_yieldHandle running unit (.failed returned)
      have same : (w.modifyUnit u fun x => { x with status := .aborted }).commitFailure u
          scope.transaction cause = w.commitFailure u scope.transaction cause := by
        simp [commitFailure, modifyUnit, unit]
      rw [← same] at last
      exact last

/-- Once the capability has failed, the commit goes on by a run of steps. -/
theorem steps_workFailed (e : ResponseError)
    (running : w.operations[c]? = some ⟨u, thread, .work scope⟩) (unit : w.units[u]? = some x) :
    ∃ w₁, w.Step (.respond c (.error e)) w₁ ∧ w₁.Steps (w.workFailed c u scope e) := by
  let w₁ := w.evolve c u (fun x => { x with status := .aborted }) scope.transaction
    (w.callSteps scope.transaction (.abort .scopeNotCompleted))
    (.leaving scope e (w.lastCall scope.transaction))
  refine ⟨w₁, .turn running unit (.fail e), ?_⟩
  simp only [workFailed, call_eq]
  split
  next r finished =>
    have last := steps_discardDependent (w := w₁) (r := r) (operations_evolve running)
      (units_evolve unit) finished
    have same : w₁.discardDependent c u scope e = _ := discardDependent_moveTo scope e
    rwa [same] at last
  next => exact .refl

theorem completeDependent_eq (w : World) (scope : Scope) :
    w.completeDependent scope = w.transact scope.transaction (w.completion scope) := by
  unfold completeDependent completion
  cases scope.dependent with
  | none => exact (w.transact_nil _).symm
  | some k => exact congrArg Prod.fst (w.call_eq _ _)

/-- Once the capability has succeeded, the commit goes on by a run of steps. -/
theorem steps_workSucceeded (running : w.operations[c]? = some ⟨u, thread, .work scope⟩)
    (unit : w.units[u]? = some x) :
    ∃ w₁, w.Step (.respond c (.data ())) w₁ ∧ w₁.Steps (w.workSucceeded c u scope) := by
  have commute : (w.modifyUnit u fun x => { x with status := .committed }).completeDependent scope =
      (w.completeDependent scope).modifyUnit u fun x => { x with status := .committed } := by
    rw [completeDependent_eq, completeDependent_eq]
    rfl
  simp only [workSucceeded, commute]
  by_cases owner : scope.owner = true
  · let w₁ := w.evolve c u (fun x => { x with status := .committed }) scope.transaction
      (w.completion scope ++ (w.completeDependent scope).callSteps scope.transaction .commit)
      (.completing scope ((w.completeDependent scope).lastCall scope.transaction))
    refine ⟨w₁, .turn running unit (.complete owner), ?_⟩
    have eq : w₁ = (((w.completeDependent scope).modifyUnit u fun x =>
          { x with status := .committed }).transact scope.transaction
            ((w.completeDependent scope).callSteps scope.transaction .commit)).moveTo c
              (.completing scope ((w.completeDependent scope).lastCall scope.transaction)) := by
      simp only [w₁, evolve, transact_append, completeDependent_eq]
      rfl
    rw [if_pos owner, call_eq]
    dsimp only
    split
    next r finished =>
      have last := steps_transactionReturned (w := w₁) (r := r) (operations_evolve running)
        (units_evolve unit) (by rw [eq]; exact finished)
      rw [eq, transactionReturned_moveTo] at last
      rw [eq]
      exact last
    next =>
      rw [eq]
      exact .refl
  · rw [if_neg owner]
    refine ⟨_, .turn running unit (.succeed (by simpa using owner)), ?_⟩
    rw [finishCommit, modifyUnit_modifyUnit, completeDependent_eq]
    exact .refl

/-- The entry of a commit into a transaction that its root holds is a step. -/
theorem steps_enterScope {y : UnitOfWork}
    (running : w.operations[c]? = some ⟨u, thread, .admission⟩) (unit : w.units[u]? = some x)
    (root : w.units[w.rootOf u]? = some y) (live : y.slot = .live n) :
    w.Steps ((w.enterScope u x n thread).1.moveTo c (.work (w.enterScope u x n thread).2)) := by
  have enter : w.Step .quiet _ := .turn running unit (.enter root live)
  by_cases away : thread ≠ x.thread
  · simp only [if_pos away] at enter
    simp only [enterScope, if_pos away]
    exact enter.steps
  · simp only [if_neg away] at enter
    simp only [enterScope, if_neg away]
    rw [evolve, transact_nil] at enter
    exact enter.steps

theorem rootOf_eq (unit : w.units[u]? = some x) : w.rootOf u = x.lineage.getLastD u := by
  simp [rootOf, unit]

/-- Once the manager has answered, the commit goes on by a run of steps. -/
theorem steps_admitted (running : w.operations[c]? = some ⟨u, thread, .admission⟩)
    (allowed : Bool) : w.Steps (w.admitted c u thread allowed) := by
  unfold admitted
  split
  next => exact .refl
  next x unit =>
    split
    next =>
      have finished : w.Step .quiet (w.evolve c u .finish 0 [] _) := .turn running unit .refuse
      rw [evolve_finish] at finished
      exact finished.steps
    next =>
      have orphan (gone : ∀ y, w.units[w.rootOf u]? = some y → y.slot = .released) :
          w.Steps (w.finishCommit c u (.error (.failure (.noTransaction x.id)))) := by
        have finished : w.Step .quiet (w.evolve c u .finish 0 [] _) :=
          .turn running unit (.orphan gone)
        rw [evolve_finish] at finished
        exact finished.steps
      unfold enterTransaction
      cases root : w.units[w.rootOf u]? with
      | none => exact orphan (by simp [root])
      | some y =>
          cases slot : y.slot with
          | released =>
              simp only [slot]
              exact orphan (by simp [root, slot])
          | live n =>
              simp only [slot]
              exact steps_enterScope running unit root slot
          | pending =>
              simp only [slot]
              have found := Step.found running unit root slot
              let hold (y : UnitOfWork) : UnitOfWork :=
                { y with slot := .live w.transactions.length, handles := y.handles + 1 }
              let w₁ := (w.openTransaction y.transactionId y.options).modifyUnit (w.rootOf u) hold
              -- The unit may be the root itself, and then it has changed where nothing is read.
              let x₁ := if w.rootOf u = u then hold x else x
              have unit₁ : w₁.units[u]? = some x₁ := by
                simp only [w₁, x₁, modifyUnit, openTransaction, List.getElem?_modify, unit]
                split <;> rfl
              have lineage : x₁.lineage = x.lineage := by
                simp only [x₁]
                split <;> rfl
              have same : w₁.rootOf u = w.rootOf u := by
                rw [rootOf_eq unit₁, rootOf_eq unit, lineage]
              have root₁ : w₁.units[w₁.rootOf u]? = some (hold y) := by
                rw [same]
                simp [w₁, modifyUnit, openTransaction, root]
              have enter := steps_enterScope (w := w₁) running unit₁ root₁ rfl
              have alike : w₁.enterScope u x₁ w.transactions.length thread =
                  w₁.enterScope u x w.transactions.length thread := by
                simp only [x₁]
                split <;> rfl
              rw [alike] at enter
              exact found.steps.trans enter

/-- A commit that begins goes on by a run of steps. -/
theorem steps_beginCommit (w : World) (u thread : Nat) : w.Steps (w.beginCommit u thread) := by
  unfold beginCommit
  split
  next => exact .refl
  next x unit =>
    split
    next v violates => exact (Step.refuse unit violates thread).steps
    next allowed =>
      have accept := (Step.accept unit allowed thread).steps
      dsimp only
      split
      next yes _ =>
        exact accept.trans (steps_admitted (List.getElem?_concat_length ..) yes)
      next => exact accept

end NestedWork.World
