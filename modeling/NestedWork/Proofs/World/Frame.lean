import NestedWork.Proofs.World.Perform

/-!
# What a step leaves alone

A turn of an operation changes its own unit, one transaction and its own stage. Most other steps
change nothing that a commit depends on.

## Implementation notes

Of a unit, the invariants read the lineage, the status, the slot and the mark that a commit is
running. Units that agree in these are alike, however their timeouts and managers differ.
-/

namespace NestedWork

/-- Two states of a unit agree in all that a commit depends on. -/
structure UnitOfWork.Alike (x x' : UnitOfWork) : Prop where
  id : x'.id = x.id
  lineage : x'.lineage = x.lineage
  status : x'.status = x.status
  slot : x'.slot = x.slot
  committing : x'.committing = x.committing

theorem UnitOfWork.Alike.refl (x : UnitOfWork) : x.Alike x := ⟨rfl, rfl, rfl, rfl, rfl⟩

theorem UnitOfWork.Alike.isRoot_eq {x x' : UnitOfWork} (h : x.Alike x') : x'.isRoot = x.isRoot := by
  simp [isRoot, h.lineage]

namespace World

variable {w w' : World} {l : Label} {c u thread n : Nat} {x : UnitOfWork} {s s' : Stage}
  {f : UnitOfWork → UnitOfWork} {actions : List Transaction.Action}

/-- The operations are the same and all units are alike. -/
structure Still (w w' : World) : Prop where
  operations : w'.operations = w.operations
  transactions : w.transactions.length ≤ w'.transactions.length
  forth : ∀ {u : Nat} {x : UnitOfWork}, w.units[u]? = some x →
    ∃ x', w'.units[u]? = some x' ∧ UnitOfWork.Alike x x'
  back : ∀ {u : Nat} {x' : UnitOfWork}, w'.units[u]? = some x' →
    ∃ x, w.units[u]? = some x ∧ UnitOfWork.Alike x x'

theorem Still.of_units (operations : w'.operations = w.operations) (units : w'.units = w.units)
    (transactions : w.transactions.length ≤ w'.transactions.length) : w.Still w' where
  operations
  transactions
  forth := fun unit => ⟨_, units ▸ unit, .refl _⟩
  back := fun unit => ⟨_, units ▸ unit, .refl _⟩

theorem still_modifyUnit (w : World) (u : Nat) (alike : ∀ x, UnitOfWork.Alike x (f x)) :
    w.Still (w.modifyUnit u f) where
  operations := rfl
  transactions := Nat.le_refl _
  forth := by
    intro v x unit
    by_cases same : u = v
    · exact ⟨f x, by simp [modifyUnit, same, unit], alike x⟩
    · exact ⟨x, by simp [modifyUnit, same, unit], .refl x⟩
  back := by
    intro v x' unit
    by_cases same : u = v
    · subst same
      obtain ⟨x, before, rfl⟩ : ∃ x, w.units[u]? = some x ∧ f x = x' := by
        simpa [modifyUnit] using unit
      exact ⟨x, before, alike x⟩
    · exact ⟨x', by simpa [modifyUnit, same] using unit, .refl x'⟩

/-- A timeout is nothing that a commit depends on. -/
theorem still_lower (w : World) (u : Nat) (timeout : Duration) :
    w.Still (w.modifyUnit u fun x => { x with options := x.options.withTimeout timeout }) :=
  w.still_modifyUnit u fun _ => ⟨rfl, rfl, rfl, rfl, rfl⟩

theorem still_lowerLive (w : World) (u m : Nat) (timeout : Duration)
    (actions : List Transaction.Action) :
    w.Still ((w.modifyUnit u fun x => { x with
      options := x.options.withTimeout timeout }).transact m actions) :=
  { w.still_lower u timeout with
    operations := rfl
    transactions := by simp [transact, modifyTransaction, modifyUnit] }

@[simp] theorem length_transact (w : World) (n : Nat) (actions : List Transaction.Action) :
    (w.transact n actions).transactions.length = w.transactions.length := by
  simp [transact, modifyTransaction]

theorem isRunning_of_scope {scope : Scope} (entered : s.scope? = some scope) :
    s.isRunning = true := by
  cases s <;> first | rfl | cases entered

theorem isAside_of_isRunning (running : s.isRunning = true) : s.isAside = false := by
  cases s <;> first | rfl | cases running

/-! ## Turns -/

theorem operations_evolve_ne {d : Nat} (ne : c ≠ d) :
    (w.evolve c u f n actions s).operations[d]? = w.operations[d]? := by
  simp [evolve, moveTo, transact, modifyTransaction, modifyUnit, ne]

theorem units_evolve_ne {v : Nat} (ne : u ≠ v) :
    (w.evolve c u f n actions s).units[v]? = w.units[v]? := by
  simp [evolve, moveTo, transact, modifyTransaction, modifyUnit, ne]

theorem transactions_evolve {t : Transaction} (transaction : w.transactions[n]? = some t) :
    (w.evolve c u f n actions s).transactions[n]? = some (t.runAt w.now actions) := by
  simp [evolve, moveTo, transact, modifyTransaction, modifyUnit, transaction]

@[simp] theorem length_evolve :
    (w.evolve c u f n actions s).transactions.length = w.transactions.length := by
  simp [evolve, moveTo, transact, modifyTransaction, modifyUnit]

section Judges

variable {scope : Scope} {result : Response Unit}

/-- A result that is settled belongs to a commit that is running, in the scope that it works in. -/
theorem Judges.running (judges : w.Judges u s scope result f) :
    s.isRunning = true ∧ s.scope? = some scope := by
  cases judges <;> exact ⟨rfl, rfl⟩

theorem Judges.kept (judges : w.Judges u s scope result f) (x : UnitOfWork) :
    (f x).id = x.id ∧ (f x).lineage = x.lineage ∧ (f x).slot = x.slot ∧
      (f x).committing = x.committing := by
  cases judges <;> exact ⟨rfl, rfl, rfl, rfl⟩

/-- The unit shows the result that is settled. -/
theorem Judges.status_eq (judges : w.Judges u s scope result f)
    (shown : s.unitStatus? = some x.status) : (f x).status = result.unitStatus := by
  cases judges with
  | failed => rfl
  | _ => exact (Option.some.inj shown).symm

end Judges

/-- A turn keeps the identity of its unit, and the slot unless that is released. -/
theorem Turns.kept (turns : w.Turns c u x thread l s f n actions s') :
    (f x).id = x.id ∧ (f x).lineage = x.lineage ∧
      ((f x).slot = x.slot ∨ (f x).slot = .released) := by
  cases turns with
  | finish judges | yield judges =>
      have kept := judges.kept x
      simp [kept]
  | leave leaves => cases leaves <;> simp
  | _ => simp [UnitOfWork.enter]

/-- A commit that goes on running shows its stage on its unit. -/
theorem Turns.shown (turns : w.Turns c u x thread l s f n actions s')
    (before : s.isRunning = true → x.committing = true ∧ s.unitStatus? = some x.status)
    (running : s'.isRunning = true) :
    s.isRunning = true ∧ (f x).committing = true ∧ s'.unitStatus? = some (f x).status := by
  cases turns with
  | enter | fail | complete => exact ⟨rfl, (before rfl).1, rfl⟩
  | discard => exact ⟨rfl, before rfl⟩
  | yield judges =>
      have shown := before judges.running.1
      refine ⟨judges.running.1, ?_, ?_⟩
      · simpa [judges.kept x] using shown.1
      · simp [Stage.unitStatus?, judges.status_eq shown.2]
  | leave =>
      revert running
      split <;> rintro ⟨⟩
  | _ => cases running

/-- A turn of an operation that is no commit under way leaves the status and the mark alone. -/
theorem Turns.quiet (turns : w.Turns c u x thread l s f n actions s')
    (idle : s.isRunning = false) :
    s'.isRunning = false ∧ (f x).status = x.status ∧ (f x).committing = x.committing := by
  cases turns with
  | finish judges | yield judges =>
      rw [judges.running.1] at idle
      cases idle
  | decline | dispose | surrender => exact ⟨rfl, rfl, rfl⟩
  | leave leaves =>
      refine ⟨by split <;> rfl, ?_⟩
      cases leaves <;> exact ⟨rfl, rfl⟩
  | _ => cases idle

/-- A commit keeps its scope, or enters the transaction that its root holds. -/
theorem Turns.scope (turns : w.Turns c u x thread l s f n actions s') {scope : Scope}
    (entered : s'.scope? = some scope) :
    s.scope? = some scope ∨
      s = .admission ∧ scope.owner = x.isRoot ∧
        ∃ y, w.units[w.rootOf u]? = some y ∧ y.slot = .live scope.transaction := by
  cases turns with
  | enter root live =>
      obtain rfl := Option.some.inj entered
      exact .inr ⟨rfl, rfl, _, root, live⟩
  | fail | complete | discard => exact .inl entered
  | leave =>
      revert entered
      split <;> rintro ⟨⟩
  | _ => cases entered

/-- A turn begins no commit of a transaction, unless a root's capability has succeeded. -/
theorem Turns.mild (turns : w.Turns c u x thread l s f n actions s') :
    (∀ a ∈ actions, a ≠ .begin .commit) ∨
      ∃ scope, s = .work scope ∧ scope.owner = true ∧ n = scope.transaction := by
  cases turns with
  | complete owner => exact .inr ⟨_, rfl, owner, rfl⟩
  | enter =>
      left
      split <;> simp
  | fail | discard | yield | surrender => exact .inl (w.mild_callSteps _ (by simp))
  | succeed => exact .inl (w.mild_completion _)
  | _ => exact .inl (by simp)

/-! ## Operations after a step -/

/-- An operation after a further one was begun is an old one, or the new one. -/
theorem operations_push {o o' : Operation} (running : (w.push o).operations[c]? = some o') :
    w.operations[c]? = some o' ∨ c = w.operations.length ∧ o' = o := by
  simp only [push] at running
  rcases Nat.lt_trichotomy c w.operations.length with lt | eq | gt
  · rw [List.getElem?_append_left lt] at running
    exact .inl running
  · subst eq
    rw [List.getElem?_concat_length] at running
    exact .inr ⟨rfl, (Option.some.inj running).symm⟩
  · rw [List.getElem?_eq_none (by simp; omega)] at running
    cases running

theorem operations_push_of {o o' : Operation} (before : w.operations[c]? = some o') :
    (w.push o).operations[c]? = some o' := by
  rw [push, List.getElem?_append_left (List.getElem?_eq_some_iff.mp before).1, before]

/-- An operation after one has been moved is another one, or the one at its new stage. -/
theorem operations_moveTo {o : Operation} {d : Nat}
    (running : w.operations[c]? = some ⟨u, thread, s⟩)
    (after : (w.moveTo c s').operations[d]? = some o) :
    c ≠ d ∧ w.operations[d]? = some o ∨ d = c ∧ o = ⟨u, thread, s'⟩ := by
  by_cases same : c = d
  · subst same
    right
    simpa [moveTo, running, eq_comm] using after
  · left
    simpa [moveTo, same] using after

/-! ## One unit and one operation -/

/-- One unit and one operation on it are changed, and nothing else that a commit depends on. -/
structure Update (w w' : World) (c u thread : Nat) (x x' : UnitOfWork) (s : Stage) : Prop where
  before : w.units[u]? = some x
  after : w'.units[u]? = some x'
  units : ∀ {v : Nat}, v ≠ u → w'.units[v]? = w.units[v]?
  operation : ∀ {d : Nat} {o : Operation}, w'.operations[d]? = some o →
    d ≠ c ∧ w.operations[d]? = some o ∨ d = c ∧ o = ⟨u, thread, s⟩
  transactions : w'.transactions.length = w.transactions.length
  id : x'.id = x.id
  lineage : x'.lineage = x.lineage
  slot : x'.slot = x.slot ∨ x'.slot = .released

namespace Update

variable {x' : UnitOfWork}

/-- Every unit was there before, with the same lineage and the same slot unless that is
released. -/
theorem unit (h : Update w w' c u thread x x' s) {v : Nat} {y : UnitOfWork}
    (unit : w'.units[v]? = some y) :
    ∃ y', w.units[v]? = some y' ∧ y.lineage = y'.lineage ∧
      (y.slot = y'.slot ∨ y.slot = .released) ∧ (v ≠ u ∧ y = y' ∨ v = u ∧ y = x' ∧ y' = x) := by
  by_cases same : v = u
  · subst same
    obtain rfl := Option.some.inj (h.after.symm.trans unit)
    exact ⟨x, h.before, h.lineage, h.slot, .inr ⟨rfl, rfl, rfl⟩⟩
  · exact ⟨y, h.units same ▸ unit, rfl, .inl rfl, .inl ⟨same, rfl⟩⟩

theorem exists_unit (h : Update w w' c u thread x x' s) {v : Nat} {y : UnitOfWork}
    (unit : w.units[v]? = some y) : ∃ y', w'.units[v]? = some y' ∧ y'.lineage = y.lineage := by
  by_cases same : v = u
  · subst same
    obtain rfl := Option.some.inj (h.before.symm.trans unit)
    exact ⟨x', h.after, h.lineage⟩
  · exact ⟨y, (h.units same).trans unit, rfl⟩

end Update

theorem update_accept (unit : w.units[u]? = some x) (thread : Nat) :
    Update w ((w.modifyUnit u fun x => { x with committing := true }).push
      ⟨u, thread, .admission⟩) w.operations.length u thread x { x with committing := true }
      .admission where
  before := unit
  after := by simp [push, modifyUnit, unit]
  units := fun ne => by simp [push, modifyUnit, ne.symm]
  operation := by
    intro d o running
    rcases operations_push running with old | new
    · exact .inl ⟨Nat.ne_of_lt (List.getElem?_eq_some_iff.mp old).1, old⟩
    · exact .inr new
  transactions := rfl
  id := rfl
  lineage := rfl
  slot := .inl rfl

theorem update_evolve (running : w.operations[c]? = some ⟨u, thread, s⟩)
    (unit : w.units[u]? = some x) (turns : w.Turns c u x thread l s f n actions s') :
    Update w (w.evolve c u f n actions s') c u thread x (f x) s' where
  before := unit
  after := units_evolve unit
  units := fun ne => units_evolve_ne ne.symm
  operation := by
    intro d o after
    rcases operations_moveTo running after with ⟨ne, old⟩ | ⟨rfl, eq⟩
    · exact .inl ⟨ne.symm, old⟩
    · exact .inr ⟨rfl, eq⟩
  transactions := length_evolve
  id := turns.kept.1
  lineage := turns.kept.2.1
  slot := turns.kept.2.2

/-! ## New units and new transactions -/

theorem length_foundAt (w : World) (r : Nat) (y : UnitOfWork) :
    (w.foundAt r y).transactions.length = w.transactions.length + 1 := by
  simp [foundAt, modifyUnit, openTransaction]

/-- Only the root is changed, and only in what it holds. -/
theorem back_foundAt {r v : Nat} {y z : UnitOfWork} (after : (w.foundAt r y).units[v]? = some z) :
    ∃ z', w.units[v]? = some z' ∧
      (z.lineage = z'.lineage ∧ z.status = z'.status ∧ z.committing = z'.committing) ∧
      (v = r ∧ z.slot = .live w.transactions.length ∨ v ≠ r ∧ z.slot = z'.slot) := by
  by_cases same : r = v
  · subst same
    obtain ⟨z', before, rfl⟩ : ∃ z', w.units[r]? = some z' ∧
        { z' with slot := .live w.transactions.length, handles := z'.handles + 1 } = z := by
      simpa [foundAt, modifyUnit, openTransaction] using after
    exact ⟨z', before, ⟨rfl, rfl, rfl⟩, .inl ⟨rfl, rfl⟩⟩
  · refine ⟨z, ?_, ⟨rfl, rfl, rfl⟩, .inr ⟨fun eq => same eq.symm, rfl⟩⟩
    simpa [foundAt, modifyUnit, openTransaction, same] using after

theorem forth_foundAt {v : Nat} {z : UnitOfWork} (r : Nat) (y : UnitOfWork)
    (before : w.units[v]? = some z) :
    ∃ z', (w.foundAt r y).units[v]? = some z' ∧ z'.id = z.id ∧ z'.lineage = z.lineage ∧
      z'.status = z.status ∧ (v ≠ r → z'.slot = z.slot) := by
  by_cases same : r = v
  · subst same
    exact ⟨{ z with slot := .live w.transactions.length, handles := z.handles + 1 },
      by simp [foundAt, modifyUnit, openTransaction, before], rfl, rfl, rfl,
      fun ne => absurd rfl ne⟩
  · exact ⟨z, by simpa [foundAt, modifyUnit, openTransaction, same] using before, rfl, rfl, rfl,
      fun _ => rfl⟩

/-- A unit after one was opened is an old one, or the new one. -/
theorem back_openedUnit {o : Opening} {options : TransactionOptions} {v : Nat} {z : UnitOfWork}
    (after : (w.units ++ [w.openedUnit o options])[v]? = some z) :
    w.units[v]? = some z ∨ v = w.units.length ∧ z = w.openedUnit o options := by
  rcases Nat.lt_trichotomy v w.units.length with lt | rfl | gt
  · rw [List.getElem?_append_left lt] at after
    exact .inl after
  · rw [List.getElem?_concat_length] at after
    exact .inr ⟨rfl, (Option.some.inj after).symm⟩
  · rw [List.getElem?_eq_none (by simp; omega)] at after
    cases after

theorem forth_openedUnit (o : Opening) (options : TransactionOptions) {v : Nat} {z : UnitOfWork}
    (before : w.units[v]? = some z) : (w.units ++ [w.openedUnit o options])[v]? = some z := by
  rw [List.getElem?_append_left (List.getElem?_eq_some_iff.mp before).1, before]

theorem rootOf_of_isRoot (unit : w.units[u]? = some x) (root : x.isRoot = true) :
    w.rootOf u = u := by
  have none : x.lineage = [] := by simpa [UnitOfWork.isRoot] using root
  rw [rootOf_eq unit, none]
  rfl

/-! ## Where things come from -/

/-- An operation on a unit takes a turn, and the unit is what that makes of it. -/
def Turned (w : World) (l : Label) (u : Nat) (x x' : UnitOfWork) : Prop :=
  ∃ (c thread n : Nat) (s s' : Stage) (f : UnitOfWork → UnitOfWork)
    (actions : List Transaction.Action), w.operations[c]? = some ⟨u, thread, s⟩ ∧
      w.Turns c u x thread l s f n actions s' ∧ x' = f x

/-- No unit is ever removed. It keeps its identity, its slot unless that is released or was still
empty, and its status unless an operation on it takes a turn. -/
theorem Step.forth (step : w.Step l w') (unit : w.units[u]? = some x) :
    ∃ x', w'.units[u]? = some x' ∧ x'.id = x.id ∧ x'.lineage = x.lineage ∧
      (x.slot = .pending ∨ x'.slot = x.slot ∨ x'.slot = .released) ∧
      (x'.status = x.status ∨ w.Turned l u x x') := by
  have still (same : w.Still w') : ∃ x', w'.units[u]? = some x' ∧ x'.id = x.id ∧
      x'.lineage = x.lineage ∧ (x.slot = .pending ∨ x'.slot = x.slot ∨ x'.slot = .released) ∧
      (x'.status = x.status ∨ w.Turned l u x x') := by
    obtain ⟨x', unit', alike⟩ := same.forth unit
    exact ⟨x', unit', alike.id, alike.lineage, .inr (.inl alike.slot), .inl alike.status⟩
  have update {c v thread : Nat} {y y' : UnitOfWork} {s : Stage}
      (up : Update w w' c v thread y y' s) (status : y'.status = y.status ∨ w.Turned l v y y') :
      ∃ x', w'.units[u]? = some x' ∧ x'.id = x.id ∧ x'.lineage = x.lineage ∧
        (x.slot = .pending ∨ x'.slot = x.slot ∨ x'.slot = .released) ∧
        (x'.status = x.status ∨ w.Turned l u x x') := by
    by_cases same : u = v
    · subst same
      obtain rfl := Option.some.inj (up.before.symm.trans unit)
      exact ⟨y', up.after, up.id, up.lineage, .inr up.slot, status⟩
    · exact ⟨x, (up.units same).trans unit, rfl, rfl, .inr (.inl rfl), .inl rfl⟩
  cases step with
  | lower => exact still (w.still_lower _ _)
  | lowerLive => exact still (w.still_lowerLive _ _ _ _)
  | openUnit o options =>
      exact ⟨x, forth_openedUnit o options unit, rfl, rfl, .inr (.inl rfl), .inl rfl⟩
  | accept unit' allowed thread => exact update (update_accept unit' thread) (.inl rfl)
  | @found c v thread y z asks unit' root pending =>
      obtain ⟨x', after, id, lineage, status, slot⟩ := forth_foundAt (w.rootOf v) z unit
      refine ⟨x', after, id, lineage, ?_, .inl status⟩
      by_cases same : u = w.rootOf v
      · subst same
        obtain rfl := Option.some.inj (root.symm.trans unit)
        exact .inl pending
      · exact .inr (.inl (slot same))
  | turn running unit' turns =>
      have turned : w.Turned l _ _ _ := ⟨_, _, _, _, _, _, _, running, turns, rfl⟩
      exact update (update_evolve running unit' turns) (.inr turned)
  | _ => exact ⟨x, unit, rfl, rfl, .inr (.inl rfl), .inl rfl⟩

/-- What a step makes of an operation: it stays where it is, is answered, or takes a turn. -/
inductive Advances (w w' : World) (l : Label) (c u thread : Nat) : Stage → Stage → Prop
  | stay {s : Stage} : Advances w w' l c u thread s s
  | answered {s : Stage} (waits : s = .rollback ∨ s = .farewell ∨ s = .welcome) :
      Advances w w' l c u thread s (.done .returned)
  | turn {x : UnitOfWork} {s s' : Stage} {f : UnitOfWork → UnitOfWork} {n : Nat}
      {actions : List Transaction.Action} (unit : w.units[u]? = some x)
      (turns : w.Turns c u x thread l s f n actions s') (after : w' = w.evolve c u f n actions s') :
      Advances w w' l c u thread s s'

/-- No operation is ever removed. -/
theorem Step.advances (step : w.Step l w') (running : w.operations[c]? = some ⟨u, thread, s⟩) :
    ∃ s', w'.operations[c]? = some ⟨u, thread, s'⟩ ∧ Advances w w' l c u thread s s' := by
  cases step with
  | refuse | accept | release | push => exact ⟨s, operations_push_of running, .stay⟩
  | @turn l d v thread' n x s₀ s' f actions running' unit turns =>
      by_cases same : d = c
      · subst same
        cases running.symm.trans running'
        exact ⟨s', operations_evolve running, .turn unit turns rfl⟩
      · exact ⟨s, (operations_evolve_ne same).trans running, .stay⟩
  | @answered d v thread' s₀ running' waits =>
      by_cases same : d = c
      · subst same
        cases running.symm.trans running'
        exact ⟨.done .returned, by simp [moveTo, running], .answered waits⟩
      · exact ⟨s, by simpa [moveTo, same] using running, .stay⟩
  | _ => exact ⟨s, running, .stay⟩

/-- An operation that has just been begun has not got past the work of a capability. -/
theorem Step.fresh {o : Operation} (step : w.Step l w') (absent : w.operations[c]? = none)
    (begun : w'.operations[c]? = some o) : o.stage.isPastWork = false := by
  have pushed {o' : Operation} (early : o'.stage.isPastWork = false)
      (back : w.operations[c]? = some o ∨ c = w.operations.length ∧ o = o') :
      o.stage.isPastWork = false := by
    rcases back with old | ⟨-, rfl⟩
    · cases absent.symm.trans old
    · exact early
  cases step with
  | refuse | accept | release => exact pushed rfl (operations_push begun)
  | push aside =>
      refine pushed ?_ (operations_push begun)
      rcases aside with rfl | rfl | rfl <;> rfl
  | turn running =>
      rcases operations_moveTo running begun with ⟨-, old⟩ | ⟨rfl, -⟩
      · cases absent.symm.trans old
      · cases absent.symm.trans running
  | answered running =>
      rcases operations_moveTo running begun with ⟨-, old⟩ | ⟨rfl, -⟩
      · cases absent.symm.trans old
      · cases absent.symm.trans running
  | _ => cases absent.symm.trans begun

/-- A unit that holds a transaction held it before, or is a root that has just opened it. -/
theorem Step.slot_back {x' : UnitOfWork} (step : w.Step l w') (unit : w'.units[u]? = some x')
    (live : x'.slot = .live n) :
    (∃ x, w.units[u]? = some x ∧ x.slot = .live n) ∨
      n = w.transactions.length ∧ ∃ v y z, w.units[v]? = some y ∧ u = w.rootOf v ∧
        w.units[u]? = some z ∧ z.slot = .pending ∧ w' = w.foundAt u z := by
  have still (same : w.Still w') : ∃ x, w.units[u]? = some x ∧ x.slot = .live n := by
    obtain ⟨x, before, alike⟩ := same.back unit
    exact ⟨x, before, alike.slot ▸ live⟩
  have update {c v thread : Nat} {y y' : UnitOfWork} {s : Stage}
      (up : Update w w' c v thread y y' s) : ∃ x, w.units[u]? = some x ∧ x.slot = .live n := by
    obtain ⟨x, before, -, slot, -⟩ := up.unit unit
    rcases slot with same | released
    · exact ⟨x, before, same ▸ live⟩
    · cases released.symm.trans live
  cases step with
  | lower => exact .inl (still (w.still_lower _ _))
  | lowerLive => exact .inl (still (w.still_lowerLive _ _ _ _))
  | openUnit =>
      rcases back_openedUnit unit with before | ⟨-, rfl⟩
      · exact .inl ⟨x', before, live⟩
      · cases live
  | accept unit' allowed thread => exact .inl (update (update_accept unit' thread))
  | @found c v thread y z asks unit' root pending =>
      obtain ⟨x, before, -, slot⟩ := back_foundAt unit
      rcases slot with ⟨rfl, slot⟩ | ⟨-, slot⟩
      · exact .inr ⟨Slot.live.inj (live.symm.trans slot), v, y, z, unit', rfl, root, pending, rfl⟩
      · exact .inl ⟨x, before, slot ▸ live⟩
  | turn running unit' turns => exact .inl (update (update_evolve running unit' turns))
  | _ => exact .inl ⟨x', unit, live⟩

/-- A commit with a handle of the owner worked in its scope before, or has just entered the
transaction that its unit holds. -/
theorem Step.scope_back {scope : Scope} (step : w.Step l w')
    (running : w'.operations[c]? = some ⟨u, thread, s⟩) (within : s.scope? = some scope)
    (owner : scope.owner = true) :
    (∃ s', w.operations[c]? = some ⟨u, thread, s'⟩ ∧ s'.scope? = some scope) ∨
      ∃ x, w.units[u]? = some x ∧ x.slot = .live scope.transaction := by
  have aside {d : Nat} {o : Operation} (idle : o.stage.scope? = none)
      (back : w.operations[c]? = some ⟨u, thread, s⟩ ∨ c = d ∧ ⟨u, thread, s⟩ = o) :
      ∃ s', w.operations[c]? = some ⟨u, thread, s'⟩ ∧ s'.scope? = some scope := by
    rcases back with old | ⟨-, new⟩
    · exact ⟨s, old, within⟩
    · subst new
      cases within.symm.trans idle
  cases step with
  | refuse | accept | release => exact .inl (aside rfl (operations_push running))
  | push kind =>
      refine .inl (aside ?_ (operations_push running))
      rcases kind with rfl | rfl | rfl <;> rfl
  | turn before unit turns =>
      rcases operations_moveTo before running with ⟨-, old⟩ | ⟨rfl, new⟩
      · exact .inl ⟨s, old, within⟩
      · cases new
        rcases turns.scope within with same | ⟨-, top, y, root, live⟩
        · exact .inl ⟨_, before, same⟩
        · rw [rootOf_of_isRoot unit (top ▸ owner)] at root
          exact .inr ⟨y, root, live⟩
  | answered before =>
      rcases operations_moveTo before running with ⟨-, old⟩ | ⟨rfl, new⟩
      · exact .inl ⟨s, old, within⟩
      · cases new
        cases within
  | _ => exact .inl ⟨s, running, within⟩

end World

end NestedWork
