import NestedWork.Proofs.World.Capability
import NestedWork.Proofs.World.Edit

/-!
# Who is let through

A commit gets to its capability only by the leave of the unit's manager, and the action by which it
does is the one at which the manager gives it. Whoever has begun to work has been let through.

## Implementation notes

A manager that decides in this world does so when the commit begins. One that decides outside is
asked, and an operation that asks belongs to a unit of such a manager.
-/

namespace NestedWork.World

variable {w w' : World} {a : Action} {l : Label} {c u v m n thread thread' : Nat} {x : UnitOfWork}
  {scope : Scope}

/-! ## Leave -/

/-- An action by which the manager of a unit lets a commit of it through. -/
inductive Permits (w : World) (u c : Nat) : Action → Prop
  /-- The manager decides in this world, as the commit begins. -/
  | decided {thread : Nat} {x : UnitOfWork} (unit : w.units[u]? = some x)
      (violates : commitViolation? x = none) (place : c = w.operations.length)
      (permits : w.admits? x.manager u = some true) : Permits w u c (.commit u thread)
  /-- The manager is asked, and says yes. -/
  | told (asked : w.need (.operation c) = .manager .canCommit u) :
      Permits w u c (.answer (.operation c) (.allowed true))

theorem needOfCall_ne_manager (w : World) (i : Inner) (q : Question) (v : Nat) :
    w.needOfCall i ≠ .manager q v := by
  unfold needOfCall
  split <;> simp

/-- A manager is asked or told about a unit by an operation that is there to do so. -/
theorem need_eq_manager {q : Question} : w.need (.operation c) = .manager q u ↔
    ∃ thread s, w.operations[c]? = some ⟨u, thread, s⟩ ∧ s.question? = some q := by
  cases running : w.operations[c]? with
  | none => simp [need, running]
  | some o =>
      obtain ⟨v, thread, s⟩ := o
      cases s with
      | leaving _ _ i | discarding _ _ i | completing _ i | yielding _ i | surrender i =>
          have other := w.needOfCall_ne_manager i
          cases need : w.needOfCall i <;>
            simp_all [World.need, needOfOperation, Stage.question?]
      | _ => simp [need, running, needOfOperation, Stage.question?, and_comm]

/-- A manager is asked whether a unit may commit by an operation that waits for its leave. -/
theorem need_eq_canCommit : w.need (.operation c) = .manager .canCommit u ↔
    ∃ thread, w.operations[c]? = some ⟨u, thread, .admission⟩ := by
  have only (s : Stage) : s.question? = some .canCommit ↔ s = .admission := by
    cases s <;> simp [Stage.question?]
  simp [need_eq_manager, only]

section Unmoved

variable {f : UnitOfWork → UnitOfWork}

theorem hasAncestor_modifyUnit (w : World) (u : Nat) (kept : ∀ x, (f x).lineage = x.lineage)
    (v ancestor : Nat) : (w.modifyUnit u f).hasAncestor v ancestor = w.hasAncestor v ancestor := by
  simp only [hasAncestor, modifyUnit, List.getElem?_modify]
  cases w.units[v]? with
  | none => rfl
  | some x => by_cases same : u = v <;> simp [same, kept]

theorem isClosed_modifyUnit (w : World) (u : Nat) (kept : ∀ x, (f x).status = x.status) :
    (w.modifyUnit u f).isClosed = w.isClosed := by
  funext v
  simp only [isClosed, modifyUnit, List.getElem?_modify]
  cases w.units[v]? with
  | none => rfl
  | some x => by_cases same : u = v <;> simp [same, kept]

/-- What managers answer depends on the lineages and the statuses only. -/
theorem admits?_modifyUnit (w : World) (u : Nat)
    (kept : ∀ x, (f x).lineage = x.lineage ∧ (f x).status = x.status) (m v : Nat) :
    (w.modifyUnit u f).admits? m v = w.admits? m v := by
  have same (live : List Nat) :
      (w.modifyUnit u f).registryAdmits live v = w.registryAdmits live v := by
    simp only [registryAdmits, descendantsIn, hasAncestor_modifyUnit w u fun x => (kept x).1,
      isClosed_modifyUnit w u fun x => (kept x).2]
  simp only [admits?, same]
  rfl

end Unmoved

/-! ## What an action does -/

/-- The operation that an action begins or takes on. -/
def movedBy (w : World) : Action → Option Nat
  | .commit _ _ | .release _ _ _ => some w.operations.length
  | .answer a _ | .turn a | .rouse a => a.operation?
  | _ => none

/-- A commit is let through in the course of an action. -/
def Admits (w : World) (a : Action) (w' : World) : Prop :=
  ∃ u c thread w₀, w.Permits u c a ∧ w.movedBy a = some c ∧ Edits a.isCommit (some c) w w₀ ∧
    w₀.operations[c]? = some ⟨u, thread, .admission⟩ ∧ w₀.LetThrough c u thread w'

/-- An answer makes for edits only, or lets a commit through. -/
theorem edits_answer (w : World) (a : Activity) (reply : Reply) :
    Edits false a.operation? w (w.answer a reply) ∨
      w.Admits (.answer a reply) (w.answer a reply) := by
  have operation (c : Nat) (w' : World) (answers : (∀ o, w.operations[c]? = some o →
      w' = w.answerOperation c o reply) ∧ (w.operations[c]? = none → w' = w)) :
      Edits false (some c) w w' ∨ w.Admits (.answer (.operation c) reply) w' := by
    cases running : w.operations[c]? with
    | none =>
        rw [answers.2 running]
        exact .inl .refl
    | some o =>
        rw [answers.1 o running]
        rcases edits_answerOperation w c o reply with edits | ⟨asked, rfl, through⟩
        · exact .inl edits
        · obtain ⟨u, thread, s⟩ := o
          subst asked
          exact .inr ⟨u, c, thread, w, .told (need_eq_canCommit.mpr ⟨thread, running⟩), rfl, .refl,
            running, through⟩
  cases reply with
  | vote v => exact .inl (edits_onInner w a fun t i => t.vote i v)
  | done =>
      cases inner : w.innerOf a with
      | some i =>
          simp only [answer, inner]
          exact .inl (edits_onInner w a fun t i => t.acknowledge i)
      | none =>
          cases a with
          | call => cases inner
          | operation c =>
              exact operation c (w.answer (.operation c) .done)
                ⟨fun o running => by simp only [answer, inner, running],
                  fun running => by simp only [answer, inner, running]⟩
  | allowed | response =>
      cases a with
      | call => exact .inl .refl
      | operation c =>
          exact operation c (w.answer (.operation c) _)
            ⟨fun o running => by simp only [answer, running],
              fun running => by simp only [answer, running]⟩

/-- A commit that begins makes for edits only, or is let through. -/
theorem edits_beginCommit (w : World) (u thread : Nat) :
    Edits true (some w.operations.length) w (w.beginCommit u thread) ∨
      w.Admits (.commit u thread) (w.beginCommit u thread) := by
  unfold beginCommit
  split
  next => exact .inl .refl
  next x unit =>
    split
    next => exact .inl (.single (.begin (by simp) (by simp)))
    next violates =>
      have begun : Edits true (some w.operations.length) w
          ((w.modifyUnit u fun x => { x with committing := true }).push
            ⟨u, thread, .admission⟩) :=
        (Edits.unit w u (fun x => { x with committing := true }) fun _ => ⟨rfl, rfl⟩).trans
          (.single (.begin (fun _ => rfl) (by simp)))
      dsimp only
      split
      next yes permits =>
        have permits : w.admits? x.manager u = some yes :=
          (admits?_modifyUnit (f := fun x => { x with committing := true }) w u
            (fun _ => ⟨rfl, rfl⟩) x.manager u).symm.trans permits
        rcases admitted_cases (update_accept unit thread).after w.operations.length thread yes
          with ⟨result, eq⟩ | ⟨rfl, through⟩
        · rw [eq]
          exact .inl (begun.trans (proceeds_finishCommit ..).edits)
        · exact .inr ⟨u, _, thread, _, .decided unit violates rfl permits, rfl, begun,
            List.getElem?_concat_length .., through⟩
      next => exact .inl begun

/-- What an action does: a client opens a transaction, there are edits only, or a commit is let
through. -/
theorem edits_perform (w : World) (a : Action) :
    (∃ localId options, a = .openTransaction localId options) ∨
      Edits a.isCommit (w.movedBy a) w (w.perform a) ∨ w.Admits a (w.perform a) := by
  cases a with
  | openTransaction localId options => exact .inl ⟨localId, options, rfl⟩
  | openUnit o =>
      right
      left
      rw [perform]
      cases opened : w.openUnit o with
      | error => exact .refl
      | ok w' => exact edits_openUnit o opened
  | commit u thread => exact .inr (edits_beginCommit w u thread)
  | release u thread dropping => exact .inr (.inl (edits_beginRelease w u thread dropping))
  | rollback u thread => exact .inr (.inl (.single (.begin (by simp) (by simp))))
  | enlist n participant => exact .inr (.inl (.transaction w n _))
  | issue n mode => exact .inr (.inl (.transaction w n _))
  | call n purpose => exact .inr (.inl (.call w n purpose))
  | answer a reply => exact .inr (edits_answer w a reply)
  | turn a => exact .inr (.inl (edits_onInner w a fun t _ => t))
  | rouse a => exact .inr (.inl (edits_onInner w a fun t i => t.rouse i))
  | tick nanos => exact .inr (.inl (.single (.tick nanos)))

/-- An operation that an action does not take on stays where it is. -/
theorem operations_perform (other : w.movedBy a ≠ some c) (old : c < w.operations.length) :
    (w.perform a).operations[c]? = w.operations[c]? := by
  rcases w.edits_perform a with ⟨localId, options, rfl⟩ | edits |
    ⟨u, d, thread, w₀, -, moved, edits, -, through⟩
  · rfl
  · exact edits.operations_eq other old
  · rw [moved] at other
    obtain ⟨scope, eq⟩ := through.operations_eq
    have ne : d ≠ c := by simpa using other
    rw [eq, ← edits.operations_eq other old]
    simp [moveTo, ne]

theorem extends_foundAt (w : World) (r : Nat) (y : UnitOfWork) : w.Extends (w.foundAt r y) := by
  have opened : w.Extends (w.openTransaction y.transactionId y.options) := .of_eq rfl rfl
  exact opened.trans (.modifyUnit _ r fun _ => ⟨rfl, rfl⟩)

theorem LetThrough.extends (through : w.LetThrough c u thread w') : w.Extends w' := by
  have entered (w : World) (x : UnitOfWork) (n : Nat) :
      w.Extends (w.setToWork c u x n thread) := by
    have edits : Edits false none w (w.enterScope u x n thread).1 :=
      (w.proceeds_enterScope u x n thread).edits
    exact edits.extends.trans (.of_eq rfl rfl)
  cases through with
  | enter => exact entered w _ _
  | found => exact (w.extends_foundAt _ _).trans (entered _ _ _)

/-- Whatever is done, the world only grows. -/
theorem extends_perform (w : World) (a : Action) : w.Extends (w.perform a) := by
  rcases w.edits_perform a with ⟨localId, options, rfl⟩ | edits |
    ⟨u, c, thread, w₀, -, -, edits, -, through⟩
  · exact .of_eq rfl rfl
  · exact edits.extends
  · exact edits.extends.trans through.extends

theorem extends_run (w : World) (actions : List Action) : w.Extends (w.run actions) := by
  induction actions generalizing w with
  | nil => exact .refl w
  | cons a rest ih => exact (w.extends_perform a).trans (ih _)

/-! ## Who asks -/

/-- A commit that waits for its manager belongs to a unit of one that decides outside. -/
def Asked (w : World) : Prop :=
  ∀ {c u thread : Nat}, w.operations[c]? = some ⟨u, thread, .admission⟩ →
    ∃ x, w.units[u]? = some x ∧ w.isExternal x.manager = true

theorem isExternal_of_admits? (outside : w.admits? m u = none) : w.isExternal m = true := by
  unfold admits? at outside
  split at outside
  · cases outside
  · cases outside
  · cases outside
  · simpa [isExternal] using ‹_›

/-- A commit that begins waits for its manager only if that one decides outside. -/
theorem admission_beginCommit
    (running : (w.beginCommit v thread).operations[c]? = some ⟨u, thread', .admission⟩) :
    w.operations[c]? = some ⟨u, thread', .admission⟩ ∨
      ∃ x, w.units[u]? = some x ∧ w.isExternal x.manager = true := by
  unfold beginCommit at running
  split at running
  next => exact .inl running
  next x unit =>
    split at running
    next =>
      rcases operations_push running with old | ⟨-, new⟩
      · exact .inl old
      · cases new
    next =>
      dsimp only at running
      split at running
      next yes _ =>
        obtain ⟨ne, before⟩ := admission_admitted (update_accept unit thread).after yes running
        rcases operations_push before with old | ⟨rfl, -⟩
        · exact .inl old
        · exact absurd rfl ne
      next outside =>
        rcases operations_push running with old | ⟨-, new⟩
        · exact .inl old
        · cases new
          have external := isExternal_of_admits? outside
          exact .inr ⟨x, unit, external⟩

/-- A commit that waits for its manager has waited before, or waits for one that decides
outside. -/
theorem admission_perform
    (running : (w.perform a).operations[c]? = some ⟨u, thread, .admission⟩) :
    w.operations[c]? = some ⟨u, thread, .admission⟩ ∨
      ∃ x, w.units[u]? = some x ∧ w.isExternal x.manager = true := by
  cases begins : a.isCommit with
  | true =>
      cases a with
      | commit v thread' => exact admission_beginCommit running
      | _ => cases begins
  | false =>
      left
      rcases w.edits_perform a with ⟨localId, options, rfl⟩ | edits |
        ⟨v, d, thread', w₀, -, -, edits, -, through⟩
      · exact running
      · rw [begins] at edits
        exact edits.admission_back running
      · rw [begins] at edits
        obtain ⟨scope, moved⟩ := through.operations_eq
        rw [moved] at running
        exact edits.admission_back (operations_moveTo_of_ne (by simp) running).2

theorem Asked.perform (h : w.Asked) (a : Action) : (w.perform a).Asked := by
  intro c u thread running
  have before : ∃ x, w.units[u]? = some x ∧ w.isExternal x.manager = true :=
    (admission_perform running).elim h id
  obtain ⟨x, unit, external⟩ := before
  obtain ⟨x', unit', -, manager⟩ := (w.extends_perform a).unit unit
  exact ⟨x', unit', by rw [(w.extends_perform a).isExternal, manager, external]⟩

theorem asked_run (managers : List Manager) (past : List Action) :
    ((initial managers).run past).Asked := by
  induction past using List.reverseRecOn with
  | nil =>
      intro c u thread running
      cases running
  | append_singleton past a ih =>
      rw [run_append]
      exact ih.perform a

/-! ## Who has been let through -/

/-- The step by which a capability is first called leaves it at work. -/
theorem Step.work_of_started (step : w.Step l w') (order : w.Orderly) (fresh : ¬ w.Started u)
    (started : w'.Started u) :
    ∃ (c thread : Nat) (scope : Scope), w'.operations[c]? = some ⟨u, thread, .work scope⟩ := by
  obtain ⟨x', unit', begun⟩ := started
  cases unit : w.units[u]? with
  | none => exact absurd (step.inDoubt_of_new unit unit') begun
  | some x =>
      have inDoubt : x.status = .inDoubt := by
        by_contra other
        exact fresh ⟨x, unit, other⟩
      rcases step.leads order unit unit' with same | leads
      · exact absurd (same.trans inDoubt) begun
      · rw [inDoubt] at leads
        have active : x'.status = .active := by
          generalize x'.status = status at leads
          cases leads
          rfl
        obtain ⟨running, turns, rfl⟩ := step.takesTurn unit unit' (by simp [active, inDoubt])
        rcases turns.active active with same | ⟨scope, rfl⟩
        · cases inDoubt.symm.trans same
        · exact ⟨_, _, scope, operations_evolve running⟩

/-- A capability stays at work until it answers. -/
theorem Step.work_forth (step : w.Step .quiet w')
    (running : w.operations[c]? = some ⟨u, thread, .work scope⟩) :
    w'.operations[c]? = some ⟨u, thread, .work scope⟩ := by
  obtain ⟨s, after, advances⟩ := step.advances running
  generalize eq : Stage.work scope = s₀ at advances
  cases advances with
  | stay => exact eq ▸ after
  | answered waits => rcases waits with rfl | rfl | rfl <;> cases eq
  | turn unit turns =>
      generalize label : Label.quiet = l at turns
      cases turns with
      | fail | succeed | complete => cases label
      | finish judges | yield judges => cases judges <;> cases eq
      | leave leaves => cases leaves <;> cases eq
      | _ => cases eq

/-- The action at which a capability is first called leaves it at work. -/
theorem work_of_started_perform (order : w.Orderly) (fresh : ¬ w.Started u)
    (started : (w.perform a).Started u) : ∃ (c thread : Nat) (scope : Scope),
      (w.perform a).operations[c]? = some ⟨u, thread, .work scope⟩ := by
  have kept {w₁ w' : World} (steps : w₁.Steps w') (order : w₁.Orderly)
      (begun : w₁.Started u → ∃ (c thread : Nat) (scope : Scope),
        w₁.operations[c]? = some ⟨u, thread, .work scope⟩) : w'.Orderly ∧ (w'.Started u →
      ∃ (c thread : Nat) (scope : Scope), w'.operations[c]? = some ⟨u, thread, .work scope⟩) := by
    induction steps with
    | refl => exact ⟨order, begun⟩
    | @tail w₂ _ _ step ih =>
        obtain ⟨order, begun⟩ := ih
        refine ⟨order.step step, fun started => ?_⟩
        by_cases before : w₂.Started u
        · obtain ⟨c, thread, scope, running⟩ := begun before
          exact ⟨c, thread, scope, step.work_forth running⟩
        · exact step.work_of_started order before started
  rcases perform_cases order.seated a with
    ⟨n, -, step⟩ | ⟨c, r, -, -, -, -, w₁, -, step, steps⟩ | steps
  · exact step.work_of_started order fresh started
  · exact (kept steps (order.step step) fun begun =>
      step.work_of_started order fresh begun).2 started
  · exact (kept steps order fun begun => absurd begun fresh).2 started

/-- A capability that is at work after an action was so before, or is called by the leave of the
manager. -/
theorem work_perform (running : (w.perform a).operations[c]? = some ⟨u, thread, .work scope⟩) :
    w.operations[c]? = some ⟨u, thread, .work scope⟩ ∨ w.Permits u c a := by
  rcases w.edits_perform a with ⟨localId, options, rfl⟩ | edits |
    ⟨v, d, thread', w₀, permits, -, edits, asks, through⟩
  · exact .inl running
  · exact .inl (edits.work_back running)
  · obtain ⟨scope', moved⟩ := through.operations_eq
    rw [moved] at running
    rcases operations_moveTo asks running with ⟨-, old⟩ | ⟨rfl, new⟩
    · exact .inl (edits.work_back old)
    · cases new
      exact .inr permits

/-- Whoever has begun to work has been let through. -/
theorem exists_permits {managers : List Manager} {past : List Action}
    (started : ((initial managers).run past).Started u) :
    ∃ earlier a later c, past = earlier ++ a :: later ∧
      ((initial managers).run earlier).Permits u c a := by
  induction past using List.reverseRecOn with
  | nil =>
      obtain ⟨x, unit, -⟩ := started
      cases unit
  | append_singleton past a ih =>
      by_cases before : ((initial managers).run past).Started u
      · obtain ⟨earlier, b, later, c, rfl, permits⟩ := ih before
        exact ⟨earlier, b, later ++ [a], c, by simp, permits⟩
      · rw [run_append] at started
        have order := orderly_run managers past
        obtain ⟨c, thread, scope, running⟩ := work_of_started_perform order before started
        refine ⟨past, a, [], c, rfl, (work_perform running).resolve_left fun old => ?_⟩
        obtain ⟨x, unit⟩ := order.seated old rfl
        refine before ⟨x, unit, fun inDoubt => ?_⟩
        have shown := (order.shown old unit rfl).2
        rw [inDoubt] at shown
        cases shown

end NestedWork.World
