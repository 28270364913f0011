import Mathlib.Data.List.Destutter
import NestedWork.Proofs.World.Course

/-!
# The life of a unit

A unit is in doubt until its capability begins to work, active while it works, and committed or
aborted from then on. A root that has shown itself committed may still abort, if the commit of its
transaction fails.

## Implementation notes

The statuses of a unit are read off a course of the run, with repetitions dropped. A call of the
capability is counted at the step at which the operation begins to need an answer from it.
-/

namespace NestedWork

namespace Status

/-- One status may follow upon another in the life of a unit. -/
inductive Leads : Status → Status → Prop
  | start : Leads inDoubt active
  | succeed : Leads active committed
  | fail : Leads active aborted
  | revoke : Leads committed aborted

variable {s s' : Status} {rest : List Status}

theorem Leads.ne_inDoubt (leads : Leads s s') : s' ≠ inDoubt := by
  cases leads <;> simp

theorem Leads.eq_aborted (leads : Leads committed s) : s = aborted := by
  cases leads
  rfl

theorem eq_nil_of_aborted (chain : (aborted :: rest).IsChain Leads) : rest = [] := by
  cases rest with
  | nil => rfl
  | cons s rest => cases (List.isChain_cons_cons.mp chain).1

theorem isPrefix_of_committed (chain : (committed :: rest).IsChain Leads) : rest <+: [aborted] := by
  cases rest with
  | nil => exact List.nil_prefix
  | cons s rest =>
      obtain ⟨leads, chain⟩ := List.isChain_cons_cons.mp chain
      cases leads
      obtain rfl := eq_nil_of_aborted chain
      exact List.prefix_rfl

theorem isPrefix_of_active (chain : (active :: rest).IsChain Leads) :
    rest <+: [aborted] ∨ rest <+: [committed, aborted] := by
  cases rest with
  | nil => exact .inl List.nil_prefix
  | cons s rest =>
      obtain ⟨leads, chain⟩ := List.isChain_cons_cons.mp chain
      cases leads with
      | succeed => exact .inr ((List.prefix_cons_inj _).mpr (isPrefix_of_committed chain))
      | fail =>
          rw [eq_nil_of_aborted chain]
          exact .inl List.prefix_rfl

/-- The two lives that a unit may lead, as far as it has got. -/
theorem isPrefix_of_inDoubt (chain : (inDoubt :: rest).IsChain Leads) :
    (inDoubt :: rest) <+: [inDoubt, active, aborted] ∨
      (inDoubt :: rest) <+: [inDoubt, active, committed, aborted] := by
  simp only [List.prefix_cons_inj]
  cases rest with
  | nil => exact .inl List.nil_prefix
  | cons s rest =>
      obtain ⟨leads, chain⟩ := List.isChain_cons_cons.mp chain
      cases leads
      simpa only [List.prefix_cons_inj] using isPrefix_of_active chain

/-- Statuses that stay or lead on lead on once repetitions are dropped. -/
theorem isChain_destutter' {statuses : List Status}
    (chain : (s :: statuses).IsChain fun s s' => s' = s ∨ Leads s s') :
    ∃ rest, statuses.destutter' (· ≠ ·) s = s :: rest ∧ (s :: rest).IsChain Leads := by
  induction statuses generalizing s with
  | nil => exact ⟨[], rfl, .singleton s⟩
  | cons s' statuses ih =>
      obtain ⟨leads, chain⟩ := List.isChain_cons_cons.mp chain
      obtain ⟨rest, eq, after⟩ := ih chain
      by_cases same : s' = s
      · subst same
        exact ⟨rest, by rw [List.destutter'_cons_neg _ (not_not.mpr rfl), eq], after⟩
      · have differs : s ≠ s' := fun eq => same eq.symm
        refine ⟨s' :: rest, by rw [List.destutter'_cons_pos _ differs, eq], ?_⟩
        exact List.isChain_cons_cons.mpr ⟨leads.resolve_left same, after⟩

end Status

namespace Stage

/-- An operation may begin at a stage. -/
def isOpening : Stage → Bool
  | admission | permission _ | rollback | welcome | done _ => true
  | _ => false

theorem scope?_of_isOpening {s : Stage} (opening : s.isOpening = true) : s.scope? = none := by
  cases s <;> first | rfl | cases opening

end Stage

namespace World

variable {w w' : World} {l : Label} {c u thread n : Nat} {x x' : UnitOfWork} {s s' : Stage}
  {f : UnitOfWork → UnitOfWork} {actions : List Transaction.Action} {scope : Scope} {inner : Inner}

/-! ## Where operations come from -/

/-- An operation after a step is an old one that may have gone on, or has just been begun. -/
theorem Step.operation_back (step : w.Step l w')
    (running : w'.operations[c]? = some ⟨u, thread, s'⟩) :
    (∃ s, w.operations[c]? = some ⟨u, thread, s⟩ ∧ Advances w w' l c u thread s s') ∨
      w.operations[c]? = none ∧ s'.isOpening = true := by
  cases before : w.operations[c]? with
  | some o =>
      obtain ⟨v, thread', s⟩ := o
      obtain ⟨s'', after, advances⟩ := step.advances before
      cases running.symm.trans after
      exact .inl ⟨s, rfl, advances⟩
  | none =>
      refine .inr ⟨rfl, ?_⟩
      have pushed {o : Operation} (opening : o.stage.isOpening = true)
          (back : w.operations[c]? = some ⟨u, thread, s'⟩ ∨
            c = w.operations.length ∧ ⟨u, thread, s'⟩ = o) : s'.isOpening = true := by
        rcases back with old | ⟨-, rfl⟩
        · cases before.symm.trans old
        · exact opening
      cases step with
      | refuse | accept | release => exact pushed rfl (operations_push running)
      | push aside =>
          refine pushed ?_ (operations_push running)
          rcases aside with rfl | rfl | rfl <;> rfl
      | turn running' =>
          rcases operations_moveTo running' running with ⟨-, old⟩ | ⟨rfl, -⟩
          · cases before.symm.trans old
          · cases before.symm.trans running'
      | answered running' =>
          rcases operations_moveTo running' running with ⟨-, old⟩ | ⟨rfl, -⟩
          · cases before.symm.trans old
          · cases before.symm.trans running'
      | _ => cases before.symm.trans running

/-- A commit that works in a scope did so before, or has just entered the transaction that its root
holds. -/
theorem Step.scope_cases (step : w.Step l w')
    (running : w'.operations[c]? = some ⟨u, thread, s'⟩) (within : s'.scope? = some scope) :
    (∃ s, w.operations[c]? = some ⟨u, thread, s⟩ ∧ s.scope? = some scope) ∨
      w.operations[c]? = some ⟨u, thread, .admission⟩ ∧ s' = .work scope ∧
        ∃ y, w.units[w.rootOf u]? = some y ∧ y.slot = .live scope.transaction := by
  rcases step.operation_back running with ⟨s, before, advances⟩ | ⟨-, opening⟩
  · cases advances with
    | stay => exact .inl ⟨s', before, within⟩
    | answered => cases within
    | turn unit turns =>
        rcases turns.scope within with same | ⟨rfl, -, y, root, live⟩
        · exact .inl ⟨s, before, same⟩
        · refine .inr ⟨before, ?_, y, root, live⟩
          cases turns with
          | enter => rw [Option.some.inj within]
          | leave leaves => cases leaves
          | finish judges | yield judges => cases judges
          | _ => cases within
  · cases within.symm.trans (Stage.scope?_of_isOpening opening)

/-- A unit after a step that is no old one is in doubt. -/
theorem Step.inDoubt_of_new (step : w.Step l w') (absent : w.units[u]? = none)
    (unit : w'.units[u]? = some x') : x'.status = .inDoubt := by
  have old (back : ∃ x, w.units[u]? = some x) : x'.status = .inDoubt := by
    obtain ⟨x, before⟩ := back
    cases absent.symm.trans before
  have still (same : w.Still w') : x'.status = .inDoubt := by
    obtain ⟨x, before, -⟩ := same.back unit
    exact old ⟨x, before⟩
  have update {c v thread : Nat} {y y' : UnitOfWork} {s : Stage}
      (up : Update w w' c v thread y y' s) : x'.status = .inDoubt := by
    obtain ⟨x, before, -⟩ := up.unit unit
    exact old ⟨x, before⟩
  cases step with
  | lower => exact still (w.still_lower _ _)
  | lowerLive => exact still (w.still_lowerLive _ _ _ _)
  | openUnit =>
      rcases back_openedUnit unit with before | ⟨-, rfl⟩
      · exact old ⟨_, before⟩
      · rfl
  | accept unit' allowed thread => exact update (update_accept unit' thread)
  | found =>
      obtain ⟨x, before, -⟩ := back_foundAt unit
      exact old ⟨x, before⟩
  | turn running unit' turns => exact update (update_evolve running unit' turns)
  | _ => exact old ⟨_, unit⟩

/-! ## Changes of the status -/

/-- A step is the turn of an operation on a unit, and the unit is what that makes of it. -/
inductive TakesTurn (w w' : World) (l : Label) (u : Nat) (x : UnitOfWork) : UnitOfWork → Prop
  | turn {c thread n : Nat} {s s' : Stage} {f : UnitOfWork → UnitOfWork}
      {actions : List Transaction.Action} (running : w.operations[c]? = some ⟨u, thread, s⟩)
      (turns : w.Turns c u x thread l s f n actions s') (after : w' = w.evolve c u f n actions s') :
      TakesTurn w w' l u x (f x)

/-- A step that changes the status of a unit is a turn of an operation on it. -/
theorem Step.takesTurn (step : w.Step l w') (unit : w.units[u]? = some x)
    (unit' : w'.units[u]? = some x') (ne : x'.status ≠ x.status) : TakesTurn w w' l u x x' := by
  have kept {y : UnitOfWork} (after : w'.units[u]? = some y) (status : y.status = x.status) :
      TakesTurn w w' l u x x' := by
    obtain rfl := Option.some.inj (unit'.symm.trans after)
    exact absurd status ne
  have still (same : w.Still w') : TakesTurn w w' l u x x' := by
    obtain ⟨y, after, alike⟩ := same.forth unit
    exact kept after alike.status
  cases step with
  | lower => exact still (w.still_lower _ _)
  | lowerLive => exact still (w.still_lowerLive _ _ _ _)
  | openUnit o options => exact kept (forth_openedUnit o options unit) rfl
  | @accept v y unit₁ allowed thread =>
      have up := update_accept unit₁ thread
      by_cases same : u = v
      · subst same
        obtain rfl := Option.some.inj (unit.symm.trans unit₁)
        exact kept up.after rfl
      · exact kept ((up.units same).trans unit) rfl
  | found =>
      obtain ⟨y, after, -, -, status, -⟩ := forth_foundAt _ _ unit
      exact kept after status
  | @turn l d v thread n y s s' f actions running unit₁ turns =>
      by_cases same : v = u
      · subst same
        obtain rfl := Option.some.inj (unit.symm.trans unit₁)
        obtain rfl := Option.some.inj (unit'.symm.trans (units_evolve unit))
        exact .turn running turns rfl
      · exact kept ((units_evolve_ne same).trans unit) rfl
  | _ => exact kept unit rfl

/-- A turn leaves the status of its unit or leads it on. -/
theorem Turns.leads (turns : w.Turns c u x thread l s f n actions s')
    (shown : s.isRunning = true → s.unitStatus? = some x.status) :
    (f x).status = x.status ∨ x.status.Leads (f x).status := by
  have here {status : Status} (eq : some status = some x.status) : x.status = status :=
    (Option.some.inj eq).symm
  cases turns with
  | enter =>
      rw [here (shown rfl)]
      exact .inr .start
  | fail =>
      rw [here (shown rfl)]
      exact .inr .fail
  | succeed | complete =>
      rw [here (shown rfl)]
      exact .inr .succeed
  | finish judges | yield judges =>
      cases judges with
      | failed =>
          simp only [UnitOfWork.status_finish, UnitOfWork.status_yield]
          rw [here (shown rfl)]
          exact .inr .revoke
      | _ => exact .inl (by simp)
  | leave leaves => cases leaves <;> exact .inl rfl
  | _ => exact .inl rfl

/-- A step leaves the status of a unit or leads it on. -/
theorem Step.leads (step : w.Step l w') (order : w.Orderly) (unit : w.units[u]? = some x)
    (unit' : w'.units[u]? = some x') : x'.status = x.status ∨ x.status.Leads x'.status := by
  by_cases same : x'.status = x.status
  · exact .inl same
  · obtain ⟨running, turns, -⟩ := step.takesTurn unit unit' same
    exact turns.leads fun busy => (order.shown running unit busy).2

/-! ## Statuses -/

/-- The status of a unit, once it was opened. -/
def statusOf? (u : Nat) (w : World) : Option Status := (w.units[u]?).map UnitOfWork.status

/-- The successive statuses of a unit. -/
def statuses (u : Nat) (ws : List World) : List Status :=
  (ws.filterMap (statusOf? u)).destutter (· ≠ ·)

/-- From a unit's status on, its statuses stay or lead on. -/
theorem isChain_statusOf? {rest : List World} (chain : (w :: rest).IsChain Follows)
    (order : w.Orderly) (unit : w.units[u]? = some x) :
    (x.status :: rest.filterMap (statusOf? u)).IsChain fun s s' => s' = s ∨ s.Leads s' := by
  induction rest generalizing w x with
  | nil => exact .singleton _
  | cons w' rest ih =>
      obtain ⟨⟨l, step⟩, chain⟩ := List.isChain_cons_cons.mp chain
      obtain ⟨x', unit', -⟩ := step.forth unit
      rw [List.filterMap_cons, statusOf?, unit']
      exact List.isChain_cons_cons.mpr
        ⟨step.leads order unit unit', ih chain (order.step step) unit'⟩

/-- A unit leads one of two lives, from the step on that opens it. -/
theorem isPrefix_statuses {rest : List World} (chain : (w :: rest).IsChain Follows)
    (order : w.Orderly) (absent : w.units[u]? = none) :
    statuses u (w :: rest) <+: [.inDoubt, .active, .aborted] ∨
      statuses u (w :: rest) <+: [.inDoubt, .active, .committed, .aborted] := by
  have none : statusOf? u w = none := by simp [statusOf?, absent]
  rw [statuses, List.filterMap_cons, none]
  induction rest generalizing w with
  | nil => exact .inl List.nil_prefix
  | cons w' rest ih =>
      obtain ⟨⟨l, step⟩, chain⟩ := List.isChain_cons_cons.mp chain
      cases unit : w'.units[u]? with
      | none =>
          have none' : statusOf? u w' = Option.none := by simp [statusOf?, unit]
          rw [List.filterMap_cons, none']
          exact ih chain (order.step step) unit none'
      | some x =>
          have inDoubt := step.inDoubt_of_new absent unit
          have lives := isChain_statusOf? chain (order.step step) unit
          rw [List.filterMap_cons, statusOf?, unit]
          dsimp only [Option.map_some]
          rw [inDoubt] at lives ⊢
          obtain ⟨life, eq, leads⟩ := Status.isChain_destutter' lives
          rw [List.destutter_cons', eq]
          exact Status.isPrefix_of_inDoubt leads

end World

end NestedWork
