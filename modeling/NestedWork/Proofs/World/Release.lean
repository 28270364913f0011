import NestedWork.Proofs.World.Commit

/-!
# Releases are made of steps

A unit that is disposed of, or dropped, goes through its stages by a run of steps.
-/

namespace NestedWork.World

variable {w : World} {c u n thread : Nat} {s : Stage} {x : UnitOfWork} {f : UnitOfWork → UnitOfWork}

theorem Leaves.manager_eq (leaves : w.Leaves x s f) : (f x).manager = x.manager := by
  cases leaves <;> rfl

/-- The end of a release is a run of steps. -/
theorem steps_bidFarewell (running : w.operations[c]? = some ⟨u, thread, s⟩)
    (unit : w.units[u]? = some x) (leaves : w.Leaves x s f) :
    w.Steps ((w.modifyUnit u f).bidFarewell c u) := by
  have leave : w.Step .quiet _ := .turn running unit (.leave leaves)
  rw [evolve, transact_nil] at leave
  have unit' : (w.modifyUnit u f).units[u]? = some (f x) := by simp [modifyUnit, unit]
  simp only [bidFarewell, unit', leaves.manager_eq]
  by_cases external : w.isExternal x.manager = true
  · rw [if_pos external] at leave
    have same : (w.modifyUnit u f).isExternal x.manager = true := external
    rw [if_pos same]
    exact leave.steps
  · rw [if_neg external] at leave
    have same : ¬ (w.modifyUnit u f).isExternal x.manager = true := external
    rw [if_neg same]
    exact leave.steps.trans (Step.forget x.manager u).steps

theorem bidFarewell_moveTo (unit : w.units[u]? = some x) :
    (w.moveTo c s).bidFarewell c u = w.bidFarewell c u := by
  have kept (m : Nat) : (w.moveTo c s).isExternal m = w.isExternal m := rfl
  have late (m : Nat) : (w.moveTo c s).forget m u = (w.forget m u).moveTo c s := rfl
  simp only [bidFarewell, units_moveTo, unit, kept, late, moveTo_moveTo]

/-- What follows the disposal of the resources is a run of steps. -/
theorem steps_resourcesDisposed (running : w.operations[c]? = some ⟨u, thread, .disposal⟩)
    (unit : w.units[u]? = some x) : w.Steps (w.resourcesDisposed c u) := by
  simp only [resourcesDisposed, unit]
  cases root : x.isRoot with
  | false =>
      have last := steps_bidFarewell running unit (.nested root)
      rwa [modifyUnit_id] at last
  | true =>
      simp only [Bool.not_true, Bool.false_eq_true, if_false]
      cases slot : x.slot with
      | pending | released =>
          exact steps_bidFarewell running unit (.empty root (by simp [slot]))
      | live n =>
          simp only [call_eq]
          by_cases last : x.handles ≤ 1
          · rw [if_pos last]
            let w₁ := w.evolve c u (fun x => { x with slot := .released, handles := x.handles - 1 })
              n (w.callSteps n (.abort .ownerReleased)) (.surrender (w.lastCall n))
            have surrender : w.Step .quiet w₁ := .turn running unit (.surrender root slot last)
            split
            next r finished =>
              have farewell := steps_bidFarewell (w := w₁) (operations_evolve running)
                (units_evolve unit) (.surrendered (r := r) finished)
              have unit₁ : w₁.units[u]? = some _ := units_evolve unit
              have same : w₁.bidFarewell c u = _ := bidFarewell_moveTo unit₁
              rw [modifyUnit_id, same] at farewell
              exact surrender.steps.trans farewell
            next => exact surrender.steps
          · rw [if_neg last]
            exact steps_bidFarewell running unit (.keep root slot last)

/-- Once the manager has answered, the release goes on by a step. -/
theorem steps_permitted {dropping : Bool}
    (running : w.operations[c]? = some ⟨u, thread, .permission dropping⟩) (allowed : Bool) :
    w.Steps (w.permitted c u dropping allowed) := by
  unfold permitted
  split
  next => exact .refl
  next x unit =>
    split
    next =>
      have decline : w.Step .quiet _ := .turn running unit .decline
      rw [evolve, transact_nil, modifyUnit_id] at decline
      exact decline.steps
    next refused =>
      have first : x.disposed = false := by
        cases eq : x.disposed <;> simp [eq] at refused ⊢
      have dispose : w.Step .quiet _ := .turn running unit (.dispose first)
      rw [evolve, transact_nil] at dispose
      exact dispose.steps

/-- A release that begins goes on by a run of steps. -/
theorem steps_beginRelease (w : World) (u thread : Nat) (dropping : Bool) :
    w.Steps (w.beginRelease u thread dropping) := by
  unfold beginRelease
  split
  next => exact .refl
  next x unit =>
    split
    next => exact (Step.push (.inr (.inr rfl)) u thread).steps
    next kept =>
      have release := (Step.release unit (by simpa using kept) thread dropping).steps
      dsimp only
      split
      next yes _ => exact release.trans (steps_permitted (List.getElem?_concat_length ..) yes)
      next => exact release

end NestedWork.World
