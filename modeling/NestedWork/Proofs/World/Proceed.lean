import NestedWork.Proofs.World.Frame

/-!
# How a commit proceeds

Once it has been let through and its capability has answered, a commit changes units and
transactions and takes its own operation to later stages. Where a unit stands, who manages it and
whether it is disposed are none of its business.

## Implementation notes

The functions of a commit are gone through once here. What any of these changes keeps, all that a
commit does keeps.
-/

namespace NestedWork

namespace Stage

/-- The operation has got the answer that it was begun for, and has no manager left to tell. -/
def isLate : Stage → Bool
  | leaving _ _ _ | discarding _ _ _ | completing _ _ | yielding _ _ | done _ => true
  | _ => false

theorem ne_admission_of_isLate {s : Stage} (late : s.isLate = true) : s ≠ admission := by
  rintro rfl
  cases late

theorem ne_work_of_isLate {s : Stage} (late : s.isLate = true) (scope : Scope) :
    s ≠ work scope := by
  rintro rfl
  cases late

end Stage

/-- Two states of a unit agree in where it stands, who manages it and whether it is disposed. -/
structure UnitOfWork.SameSeat (x x' : UnitOfWork) : Prop where
  lineage : x'.lineage = x.lineage
  manager : x'.manager = x.manager
  disposed : x'.disposed = x.disposed

namespace World

variable {w w₁ w' : World} {moved : Option Nat} {c u n : Nat}

/-- One thing that is done as an operation proceeds. Only the operation that is named is moved
on. -/
inductive Proceed (moved : Option Nat) (w : World) : World → Prop
  | unit (u : Nat) {f : UnitOfWork → UnitOfWork} (kept : ∀ x, UnitOfWork.SameSeat x (f x)) :
      Proceed moved w (w.modifyUnit u f)
  | transaction (n : Nat) (f : Transaction → Transaction) :
      Proceed moved w (w.modifyTransaction n f)
  | stage {c : Nat} {s : Stage} (here : moved = some c) (late : s.isLate = true) :
      Proceed moved w (w.moveTo c s)

/-- All that is done as an operation proceeds. -/
def Proceeds (moved : Option Nat) : World → World → Prop := Relation.ReflTransGen (Proceed moved)

namespace Proceeds

theorem refl : Proceeds moved w w := Relation.ReflTransGen.refl

theorem trans (first : Proceeds moved w w₁) (second : Proceeds moved w₁ w') : Proceeds moved w w' :=
  Relation.ReflTransGen.trans first second

theorem unit (w : World) (u : Nat) (f : UnitOfWork → UnitOfWork)
    (kept : ∀ x, UnitOfWork.SameSeat x (f x)) : Proceeds moved w (w.modifyUnit u f) :=
  .single (.unit u kept)

theorem transaction (w : World) (n : Nat) (f : Transaction → Transaction) :
    Proceeds moved w (w.modifyTransaction n f) := .single (.transaction n f)

theorem call (w : World) (n : Nat) (purpose : Purpose) : Proceeds moved w (w.call n purpose).1 :=
  transaction w n _

theorem stage (w : World) {s : Stage} (late : s.isLate = true) :
    Proceeds (some c) w (w.moveTo c s) :=
  .single (.stage rfl late)

end Proceeds

theorem proceeds_finishCommit (w : World) (c u : Nat) (result : Response Unit) :
    Proceeds (some c) w (w.finishCommit c u result) :=
  (Proceeds.unit w u .finish fun _ => ⟨rfl, rfl, rfl⟩).trans (.stage _ rfl)

theorem proceeds_yieldHandle (w : World) (c u : Nat) (scope : Scope) (result : Response Unit) :
    Proceeds (some c) w (w.yieldHandle c u scope result) := by
  unfold yieldHandle
  split
  next =>
    apply (Proceeds.unit w u (fun x => { x with handles := x.handles - 1 })
      fun _ => ⟨rfl, rfl, rfl⟩).trans
    dsimp only
    split
    next =>
      apply (Proceeds.call _ scope.transaction (.abort .ownerReleased)).trans
      split
      · exact proceeds_finishCommit ..
      · exact .stage _ rfl
    next => exact proceeds_finishCommit ..
  next => exact proceeds_finishCommit ..

theorem proceeds_discardDependent (w : World) (c u : Nat) (scope : Scope) (e : ResponseError) :
    Proceeds (some c) w (w.discardDependent c u scope e) := by
  unfold discardDependent
  split
  next => exact proceeds_yieldHandle ..
  next k _ =>
    apply (Proceeds.call w scope.transaction (.release k false)).trans
    dsimp only
    split
    · exact proceeds_yieldHandle ..
    · exact .stage _ rfl

theorem proceeds_workFailed (w : World) (c u : Nat) (scope : Scope) (e : ResponseError) :
    Proceeds (some c) w (w.workFailed c u scope e) := by
  apply (Proceeds.unit w u (fun x => { x with status := .aborted })
    fun _ => ⟨rfl, rfl, rfl⟩).trans
  apply (Proceeds.call _ scope.transaction (.abort .scopeNotCompleted)).trans
  unfold workFailed
  dsimp only
  split
  · exact proceeds_discardDependent ..
  · exact .stage _ rfl

theorem proceeds_transactionReturned (w : World) (c u : Nat) (scope : Scope)
    (r : Except Aborted Unit) : Proceeds (some c) w (w.transactionReturned c u scope r) := by
  cases r with
  | ok => exact proceeds_yieldHandle ..
  | error =>
      exact (Proceeds.unit w u (fun x => { x with status := .aborted })
        fun _ => ⟨rfl, rfl, rfl⟩).trans (proceeds_yieldHandle ..)

theorem proceeds_completeDependent (w : World) (scope : Scope) :
    Proceeds moved w (w.completeDependent scope) := by
  unfold completeDependent
  split
  · exact .refl
  · exact .call ..

theorem proceeds_workSucceeded (w : World) (c u : Nat) (scope : Scope) :
    Proceeds (some c) w (w.workSucceeded c u scope) := by
  apply (Proceeds.unit w u (fun x => { x with status := .committed })
    fun _ => ⟨rfl, rfl, rfl⟩).trans
  apply (proceeds_completeDependent _ scope).trans
  unfold workSucceeded
  dsimp only
  split
  next =>
    apply (Proceeds.call _ scope.transaction .commit).trans
    split
    · exact proceeds_transactionReturned ..
    · exact .stage _ rfl
  next => exact proceeds_finishCommit ..

theorem proceeds_enterScope (w : World) (u : Nat) (x : UnitOfWork) (n thread : Nat) :
    Proceeds moved w (w.enterScope u x n thread).1 := by
  by_cases away : thread ≠ x.thread
  · simp only [enterScope, if_pos away]
    exact (Proceeds.transaction w n fun y => y.issue .blocking).trans
      (.unit _ u (.enter n) fun _ => ⟨rfl, rfl, rfl⟩)
  · simp only [enterScope, if_neg away]
    exact .unit _ u (.enter n) fun _ => ⟨rfl, rfl, rfl⟩

/-- Timeouts are shortened along the way of a commit as well as of an opening. -/
theorem proceeds_lowerUnit (w : World) (u : Nat) (timeout : Duration) :
    Proceeds moved w (w.lowerUnit u timeout) := by
  unfold lowerUnit
  split
  next => exact .refl
  next =>
    split
    next => exact .refl
    next =>
      have lowered : Proceeds moved w (w.modifyUnit u fun x => { x with
          options := x.options.withTimeout timeout }) := .unit w u _ fun _ => ⟨rfl, rfl, rfl⟩
      dsimp only
      split
      · exact lowered.trans (.call ..)
      · exact lowered

theorem proceeds_lowerUnits (units : List Nat) (timeout : Duration) (w : World) :
    Proceeds moved w (units.foldl (fun w v => w.lowerUnit v timeout) w) := by
  induction units generalizing w with
  | nil => exact .refl
  | cons v rest ih => exact (proceeds_lowerUnit w v timeout).trans (ih _)

/-- An operation goes on from a call as a commit does, or tells its manager that the unit is
disposed. -/
theorem proceeds_resume (w : World) (c : Nat) : Proceeds (some c) w (w.resume c) ∨
    ∃ u thread inner, w.operations[c]? = some ⟨u, thread, .surrender inner⟩ ∧
      w.resume c = w.bidFarewell c u := by
  unfold resume
  split
  next => exact .inl .refl
  next o running =>
    obtain ⟨u, thread, s⟩ := o
    cases s with
    | leaving =>
        dsimp only
        split
        · exact .inl (proceeds_discardDependent ..)
        · exact .inl .refl
    | discarding =>
        dsimp only
        split
        · exact .inl (proceeds_yieldHandle ..)
        · exact .inl .refl
    | completing =>
        dsimp only
        split
        · exact .inl (proceeds_transactionReturned ..)
        · exact .inl .refl
    | yielding =>
        dsimp only
        split
        · exact .inl (proceeds_finishCommit ..)
        · exact .inl .refl
    | surrender inner =>
        dsimp only
        split
        · exact .inr ⟨u, thread, inner, running, rfl⟩
        · exact .inl .refl
    | _ => exact .inl .refl

end World

end NestedWork
