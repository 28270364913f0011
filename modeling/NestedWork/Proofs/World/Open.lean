import NestedWork.Proofs.World.Step

/-!
# Openings are made of steps

A nested unit that asks for a shorter timeout lowers that of every ancestor, one step each. Then it
is opened.
-/

namespace NestedWork.World

variable {w : World}

/-- Lowering the timeout of a unit is a step, or nothing. -/
theorem steps_lowerUnit (w : World) (u : Nat) (timeout : Duration) :
    w.Steps (w.lowerUnit u timeout) := by
  unfold lowerUnit
  split
  next => exact .refl
  next x unit =>
    split
    next => exact .refl
    next lt =>
      dsimp only
      split
      next n live =>
        rw [call_eq]
        exact (Step.lowerLive unit lt live).steps
      next none => exact (Step.lower unit lt none).steps

/-- Lowering the timeout of a unit changes neither the lineages nor the managers. -/
theorem lowerUnit_frame (w : World) (u : Nat) (timeout : Duration) (parent : Option Nat) :
    (w.lowerUnit u timeout).lineageUnder parent = w.lineageUnder parent ∧
      (w.lowerUnit u timeout).units.length = w.units.length ∧
      (w.lowerUnit u timeout).managers = w.managers := by
  unfold lowerUnit
  split
  next => exact ⟨rfl, rfl, rfl⟩
  next x unit =>
    split
    next => exact ⟨rfl, rfl, rfl⟩
    next =>
      have kept : (w.modifyUnit u fun x => { x with
          options := x.options.withTimeout timeout }).lineageUnder parent =
          w.lineageUnder parent := by
        cases parent with
        | none => rfl
        | some p =>
            simp only [lineageUnder, modifyUnit, List.getElem?_modify]
            cases w.units[p]? with
            | none => rfl
            | some y => by_cases same : u = p <;> simp [same]
      dsimp only
      split
      · exact ⟨kept, by simp [call, modifyTransaction, modifyUnit], rfl⟩
      · exact ⟨kept, by simp [modifyUnit], rfl⟩

/-- Lowering the timeouts of some units is a run of steps. -/
theorem steps_lowerUnits (units : List Nat) (timeout : Duration) (w : World)
    (parent : Option Nat) :
    let w' := units.foldl (fun w v => w.lowerUnit v timeout) w
    w.Steps w' ∧ w'.lineageUnder parent = w.lineageUnder parent ∧
      w'.units.length = w.units.length ∧ w'.managers = w.managers := by
  induction units generalizing w with
  | nil => exact ⟨.refl, rfl, rfl, rfl⟩
  | cons v rest ih =>
      obtain ⟨steps, lineage, length, managers⟩ := ih (w.lowerUnit v timeout)
      obtain ⟨lineage₁, length₁, managers₁⟩ := w.lowerUnit_frame v timeout parent
      exact ⟨(w.steps_lowerUnit v timeout).trans steps, lineage.trans lineage₁,
        length.trans length₁, managers.trans managers₁⟩

/-- Opening a unit is a run of steps. -/
theorem steps_openUnit {w' : World} (o : Opening) (opened : w.openUnit o = .ok w') :
    w.Steps w' := by
  unfold openUnit at opened
  split at opened
  next => cases opened
  next options lowered _ =>
    obtain rfl := Except.ok.inj opened
    obtain ⟨lower, lineage, length, managers⟩ :=
      steps_lowerUnits lowered o.options.timeout w o.parent
    generalize lowered.foldl (fun w v => w.lowerUnit v o.options.timeout) w = w₁ at *
    have same : w.openedUnit o options = w₁.openedUnit o options := by
      simp only [openedUnit, lineage]
    have append := (Step.openUnit (w := w₁) o options).steps
    rw [same]
    apply (lower.trans append).trans
    split
    · exact (Step.push (.inr (.inl rfl)) w.units.length o.thread).steps
    · exact (Step.register o.manager w.units.length).steps.trans
        (Step.push (.inr (.inr rfl)) w.units.length o.thread).steps

end NestedWork.World
