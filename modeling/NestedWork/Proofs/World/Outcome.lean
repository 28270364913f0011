import NestedWork.Proofs.World.Handle

/-!
# What a commit has returned

What an operation has returned stays. Of all the commits of a unit, one returns data at most, since
a second one that got to the capability would have to begin while the unit is in doubt again.
-/

namespace NestedWork

/-- A commit works in a transaction, or its capability has succeeded. -/
def Stage.isEntitled (s : Stage) : Bool := s.isEngaged || s.isPastWork

namespace World

variable {w w' : World} {l : Label} {c d u thread thread' : Nat} {x : UnitOfWork} {s s' : Stage}

/-! ## What stays -/

/-- No unit changes its identifier, no operation its unit or its thread, and none goes on once it
has returned. -/
structure Endures (w w' : World) : Prop where
  unit : ∀ {u : Nat} {x : UnitOfWork}, w.units[u]? = some x → ∃ x', w'.units[u]? = some x' ∧
    x'.id = x.id
  operation : ∀ {c u thread : Nat} {s : Stage}, w.operations[c]? = some ⟨u, thread, s⟩ →
    ∃ s', w'.operations[c]? = some ⟨u, thread, s'⟩ ∧ ∀ answer, s = .done answer → s' = s

namespace Endures

theorem refl (w : World) : w.Endures w where
  unit := fun unit => ⟨_, unit, rfl⟩
  operation := fun running => ⟨_, running, fun _ _ => rfl⟩

theorem length_le (h : w.Endures w') : w.operations.length ≤ w'.operations.length := by
  refine Nat.le_of_not_lt fun fewer => ?_
  obtain ⟨s, after, -⟩ := h.operation (List.getElem?_eq_getElem fewer)
  exact Nat.lt_irrefl _ (List.getElem?_eq_some_iff.mp after).1

theorem step {w₁ : World} (h : w.Endures w₁) (step : w₁.Step l w') : w.Endures w' where
  unit := by
    intro u x unit
    obtain ⟨x₁, unit₁, id₁⟩ := h.unit unit
    obtain ⟨x', unit', id, -⟩ := step.forth unit₁
    exact ⟨x', unit', id.trans id₁⟩
  operation := by
    intro c u thread s running
    obtain ⟨s₁, running₁, still₁⟩ := h.operation running
    obtain ⟨s', after, advances⟩ := step.advances running₁
    refine ⟨s', after, ?_⟩
    rintro answer rfl
    obtain rfl := still₁ answer rfl
    cases advances with
    | stay => rfl
    | answered waits => rcases waits with eq | eq | eq <;> cases eq
    | turn unit turns =>
        cases turns with
        | finish judges | yield judges => cases judges
        | leave leaves => cases leaves

end Endures

/-- A world that runs can reach is reached by one. -/
theorem Reachable.exists_run {managers : List Manager} (reachable : Reachable managers w) :
    ∃ past, w = (World.initial managers).run past := by
  induction reachable with
  | initial => exact ⟨[], rfl⟩
  | step _ a ih =>
      obtain ⟨past, rfl⟩ := ih
      exact ⟨past ++ [a], by rw [run_append]; rfl⟩

theorem reachable_run (managers : List Manager) (past : List Action) :
    Reachable managers ((World.initial managers).run past) := by
  induction past using List.reverseRecOn with
  | nil => exact .initial
  | append_singleton past a ih =>
      rw [run_append]
      exact ih.step a

theorem Reachable.orderly {managers : List Manager} (reachable : Reachable managers w) :
    w.Orderly := by
  obtain ⟨past, rfl⟩ := reachable.exists_run
  exact orderly_run managers past

theorem endures_perform (order : w.Orderly) (a : Action) : w.Endures (w.perform a) :=
  perform_induction (P := w.Endures) (.refl w) order.seated
    (fun _ _ _ step => (Endures.refl w).step step) fun h step _ => h.step step

/-- A commit that begins is one operation more. -/
theorem operations_beginCommit (unit : w.units[u]? = some x) (thread : Nat) :
    ∃ s, (w.beginCommit u thread).operations = w.operations ++ [⟨u, thread, s⟩] := by
  simp only [beginCommit, unit]
  split
  next => exact ⟨_, rfl⟩
  next =>
    have moved (s : Stage) : ((w.push ⟨u, thread, .admission⟩).moveTo w.operations.length
        s).operations = w.operations ++ [⟨u, thread, s⟩] := by
      rw [moveTo_push]
      rfl
    split
    next yes _ =>
      rcases admitted_cases (update_accept unit thread).after w.operations.length thread yes with
        ⟨result, eq⟩ | ⟨-, through⟩
      · rw [eq]
        exact ⟨_, moved _⟩
      · obtain ⟨scope, eq⟩ := through.operations_eq
        rw [eq]
        exact ⟨_, moved _⟩
    next => exact ⟨_, rfl⟩

/-! ## Which commit returns data -/

theorem Step.isEntitled_back (step : w.Step l w')
    (running : w'.operations[c]? = some ⟨u, thread, s'⟩) (entitled : s'.isEntitled = true) :
    (∃ s, w.operations[c]? = some ⟨u, thread, s⟩ ∧ s.isEntitled = true) ∨
      w.operations[c]? = some ⟨u, thread, .admission⟩ := by
  rcases Bool.or_eq_true_iff.mp entitled with engaged | past
  · obtain ⟨scope, within⟩ := Option.isSome_iff_exists.mp engaged
    rcases step.scope_cases running within with ⟨s, before, within⟩ | ⟨waits, -⟩
    · exact .inl ⟨s, before, by simp [Stage.isEntitled, Stage.isEngaged, within]⟩
    · exact .inr waits
  · rcases step.isPastWork_back running past with ⟨s, before, past⟩ | ⟨-, scope, work⟩
    · exact .inl ⟨s, before, by simp [Stage.isEntitled, past]⟩
    · exact .inl ⟨_, work, rfl⟩

/-- While a commit of a unit waits for its manager, no other one has got to the capability. -/
theorem Stemmed.eq_of_admission (h : w.Stemmed)
    (asks : w.operations[c]? = some ⟨u, thread, .admission⟩)
    (other : w.operations[d]? = some ⟨u, thread', s⟩) (entitled : s.isEntitled = true) :
    c = d := by
  rcases Bool.or_eq_true_iff.mp entitled with engaged | past
  · exact h.order.alone asks other rfl (Stage.isRunning_of_isEngaged engaged)
  · obtain ⟨x, unit, begun⟩ := h.credited other past
    have shown := (h.order.shown asks unit rfl).2
    exact absurd (Option.some.inj shown).symm begun

/-- Of the commits of a unit, one at most gets to the capability without failing. -/
def Sole (w : World) : Prop :=
  ∀ {c d u thread thread' : Nat} {s s' : Stage}, w.operations[c]? = some ⟨u, thread, s⟩ →
    w.operations[d]? = some ⟨u, thread', s'⟩ → s.isEntitled = true → s'.isEntitled = true → c = d

theorem Sole.step (h : w.Sole) (stemmed : w.Stemmed) (step : w.Step l w') : w'.Sole := by
  intro c d u thread thread' s s' first second entitled entitled'
  rcases step.isEntitled_back first entitled with ⟨s, before, entitled⟩ | asks
  · rcases step.isEntitled_back second entitled' with ⟨s', before', entitled'⟩ | asks'
    · exact h before before' entitled entitled'
    · exact (stemmed.eq_of_admission asks' before entitled).symm
  · rcases step.isEntitled_back second entitled' with ⟨s', before', entitled'⟩ | asks'
    · exact stemmed.eq_of_admission asks before' entitled'
    · exact stemmed.order.alone asks asks' rfl rfl

theorem Reachable.sole {managers : List Manager} (reachable : Reachable managers w) : w.Sole := by
  obtain ⟨past, rfl⟩ := reachable.exists_run
  refine (@run_induction (fun w => w.Stemmed ∧ w.Sole) managers [] past
    ⟨stemmed_initial managers, fun running => nomatch running⟩ ?_).2
  exact fun _ ⟨stemmed, h⟩ step => ⟨stemmed.step step, h.step stemmed step⟩

end World

end NestedWork
