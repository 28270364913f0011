import NestedWork.Proofs.World.Founding
import NestedWork.Proofs.World.Refusal

/-!
# Commits that outlive their unit

Once the capability of a unit has been called to dispose of its resources, no commit of the unit
begins any more. One that was waiting for its manager by then is not stopped by that. If the manager
lets it through, the capability is called after all, unless the root has given up the transaction of
the tree.

## Implementation notes

That a unit is disposed is checked as a commit begins, and not again when the manager has answered.
A root that is disposed gives up its transaction, which is found at the answer. So a root stops its
stragglers once its resources have been disposed of, and a nested unit never does.
-/

namespace NestedWork.World

variable {w w' : World} {a : Action} {l : Label} {c d u v thread : Nat} {x : UnitOfWork}
  {managers : List Manager} {past : List Action} {front rest ws : List World}

/-! ## Moments of a course -/

/-- At any moment of a course, what has been done of a release is what its phase says. -/
theorem Course.phase_of_split (course : Course managers past ws) (u : Nat)
    (split : ws = front ++ w :: rest) : w.Phase u (partings u (front ++ [w])) := by
  refine course.induction_split (P := fun front w => w.Phase u (partings u (front ++ [w]))) ?_
    (fun phase step => ?_) split
  · exact .whole rfl rfl fun c => by simp [isAt, initial]
  · rw [partings_concat]
    exact phase.step step

/-! ## Who may still be let through -/

/-- A commit that comes to ask its manager at a step begins with it, on a unit that is not
disposed. -/
theorem Step.of_question (step : w.Step l w') (question : c ∈ questionsBetween u w w') :
    w.isDisposed u = false ∧ w'.isDisposed u = false := by
  obtain ⟨entered, early⟩ := step.mem_questionsBetween.mp question
  obtain ⟨thread, s, running, here⟩ := isAt_iff.mp entered
  have absent : w.operations[c]? = none := by
    rcases step.operation_back running with ⟨s₀, before, advances⟩ | ⟨absent, -⟩
    · rw [isAt_of before] at early
      cases advances with
      | stay => cases early.symm.trans here
      | answered => cases here
      | turn _ turns => cases early.symm.trans (turns.isEntered_eq.1.symm.trans here)
    · exact absent
  obtain rfl := (step.isEntered_fresh absent running).resolve_right (by simp [here])
  have pushed {o : Operation} (other : o.stage ≠ .admission)
      (back : w.operations[c]? = some ⟨u, thread, .admission⟩ ∨
        c = w.operations.length ∧ ⟨u, thread, .admission⟩ = o) :
      w.isDisposed u = false ∧ w'.isDisposed u = false := by
    rcases back with before | ⟨-, rfl⟩
    · cases absent.symm.trans before
    · exact absurd rfl other
  cases step with
  | @accept v x unit allowed thread' =>
      rcases operations_push running with before | ⟨-, new⟩
      · cases absent.symm.trans before
      · cases new
        have whole : x.disposed = false := by
          cases disposed : x.disposed with
          | false => rfl
          | true => simp [commitViolation?, disposed] at allowed
        have after := (update_accept unit thread).after
        exact ⟨(isDisposed_of unit).trans whole, (isDisposed_of after).trans whole⟩
  | refuse | release => exact pushed (by simp) (operations_push running)
  | push aside =>
      refine pushed ?_ (operations_push running)
      rcases aside with rfl | rfl | rfl <;> simp
  | turn before =>
      rcases operations_moveTo before running with ⟨-, before⟩ | ⟨rfl, -⟩
      · cases absent.symm.trans before
      · cases absent.symm.trans before
  | answered before =>
      rcases operations_moveTo before running with ⟨-, before⟩ | ⟨rfl, -⟩
      · cases absent.symm.trans before
      · cases absent.symm.trans before
  | _ => cases absent.symm.trans running

theorem mem_questionsBetween_of (asking : w'.isAsking u c = true)
    (before : w.isAsking u c = false) : c ∈ questionsBetween u w w' := by
  obtain ⟨thread, running⟩ := isAsking_iff.mp asking
  have begun : c < w'.operations.length := (List.getElem?_eq_some_iff.mp running).1
  simp [questionsBetween, begun, asking, before]

/-- Of a unit that is disposed, only a commit that did so before asks the manager. -/
theorem Step.isAsking_back (step : w.Step l w') (gone : w.isDisposed u = true)
    (asking : w'.isAsking u c = true) : w.isAsking u c = true := by
  by_contra before
  have question := mem_questionsBetween_of asking (Bool.not_eq_true _ ▸ before)
  cases gone.symm.trans (step.of_question question).1

/-- A capability is called for a commit that was waiting for its manager, in a tree whose root holds
a transaction. -/
theorem Step.of_call (step : w.Step l w') (call : c ∈ callsBetween u w w') :
    w.isAsking u c = true ∧ w.hasYielded (w.rootOf u) = false := by
  obtain ⟨work, idle⟩ := mem_callsBetween.mp call
  obtain ⟨thread, scope, running⟩ := isAtWork_iff.mp work
  have waits : w.operations[c]? = some ⟨u, thread, .admission⟩ := by
    refine (step.work_back running).resolve_left fun before => ?_
    rw [isAtWork_iff.mpr ⟨thread, scope, before⟩] at idle
    cases idle
  refine ⟨isAsking_iff.mpr ⟨thread, waits⟩, ?_⟩
  rcases step.scope_cases running rfl with ⟨s, before, within⟩ | ⟨-, -, y, root, live⟩
  · cases waits.symm.trans before
    cases within
  · rw [hasYielded_of root, live]
    rfl

/-- Once a unit is disposed, its capability is called only for commits that are waiting for the
manager already. -/
theorem isAsking_of_mem_calls (chain : (w :: rest).IsChain Follows) (gone : w.isDisposed u = true)
    (call : c ∈ calls u (w :: rest)) : w.isAsking u c = true := by
  induction rest generalizing w with
  | nil => cases call
  | cons w' rest ih =>
      obtain ⟨⟨l, step⟩, chain⟩ := List.isChain_cons_cons.mp chain
      rcases List.mem_append.mp call with now | later
      · exact (step.of_call now).1
      · exact step.isAsking_back gone (ih chain (step.isDisposed gone) later)

/-- Once the root has given up the transaction of its tree, no capability in the tree is called. -/
theorem calls_of_hasYielded (chain : (w :: rest).IsChain Follows) (unit : w.units[u]? = some x)
    (yielded : w.hasYielded (w.rootOf u) = true) : calls u (w :: rest) = [] := by
  induction rest generalizing w x with
  | nil => rfl
  | cons w' rest ih =>
      obtain ⟨⟨l, step⟩, chain⟩ := List.isChain_cons_cons.mp chain
      have none : callsBetween u w w' = [] :=
        List.eq_nil_iff_forall_not_mem.mpr fun c call => by
          cases yielded.symm.trans (step.of_call call).2
      obtain ⟨x', unit', -⟩ := step.forth unit
      have still : w'.hasYielded (w'.rootOf u) = true := by
        rw [step.rootOf_eq unit]
        exact step.hasYielded yielded
      rw [calls, none, List.nil_append]
      exact ih chain unit' still

/-- A commit that waits for the manager of a disposed unit was already waiting when the unit was not
disposed. -/
theorem Course.exists_isAsking_before (course : Course managers past ws)
    (split : ws = front ++ w :: rest) (gone : w.isDisposed u = true)
    (asking : w.isAsking u c = true) :
    ∃ v ∈ front, v.isAsking u c = true ∧ v.isDisposed u = false := by
  refine course.induction_split (P := fun front w => w.isDisposed u = true →
    w.isAsking u c = true → ∃ v ∈ front, v.isAsking u c = true ∧ v.isDisposed u = false)
    (fun gone => nomatch gone) (fun {front v w l} ih step gone asking => ?_) split gone asking
  cases disposed : v.isDisposed u with
  | false =>
      by_cases earlier : v.isAsking u c = true
      · exact ⟨v, by simp, earlier, disposed⟩
      · have question := mem_questionsBetween_of asking (Bool.not_eq_true _ ▸ earlier)
        cases gone.symm.trans (step.of_question question).2
  | true =>
      obtain ⟨v', mem, before⟩ := ih disposed (step.isAsking_back disposed asking)
      exact ⟨v', List.mem_append_left _ mem, before⟩

/-! ## What the next action does -/

/-- Once a unit is disposed, an action calls its capability exactly if it is the leave of the
manager for a commit that waits for it, and the root holds on to the transaction. -/
theorem mem_callsBetween_perform (order : w.Orderly) (gone : w.isDisposed u = true) :
    c ∈ callsBetween u w (w.perform a) ↔
      a = .answer (.operation c) (.allowed true) ∧ w.isAsking u c = true ∧
        w.hasYielded (w.rootOf u) = false := by
  obtain ⟨x, unit, disposed⟩ := exists_of_isDisposed gone
  obtain ⟨y, root, -⟩ := order.rooted unit
  rw [← rootOf_eq unit] at root
  constructor
  · intro call
    obtain ⟨work, idle⟩ := mem_callsBetween.mp call
    obtain ⟨thread, scope, running⟩ := isAtWork_iff.mp work
    have permits := (work_perform running).resolve_left fun before => by
      rw [isAtWork_iff.mpr ⟨thread, scope, before⟩] at idle
      cases idle
    cases permits with
    | decided unit₁ allowed =>
        obtain rfl := Option.some.inj (unit.symm.trans unit₁)
        simp [commitViolation?, disposed] at allowed
    | told asked =>
        obtain ⟨thread', waits⟩ := need_eq_canCommit.mp asked
        refine ⟨rfl, isAsking_iff.mpr ⟨thread', waits⟩, ?_⟩
        cases yielded : w.hasYielded (w.rootOf u) with
        | false => rfl
        | true =>
            -- The commit would have been refused.
            have fails : w.failure? u x true = some (.noTransaction x.id) := by
              simp [failure?, yielded]
            have judged := judged_admitted order unit waits true
            unfold Judged at judged
            rw [← perform_answer_admission waits, fails] at judged
            rw [judged.2.1 u] at call
            cases call
  · rintro ⟨rfl, asking, holds⟩
    obtain ⟨thread, waits⟩ := isAsking_iff.mp asking
    have through := letThrough_admitted unit root holds c thread
    rw [← perform_answer_admission waits] at through
    refine mem_callsBetween.mpr ⟨through.isAtWork waits, Bool.eq_false_iff.mpr fun work => ?_⟩
    obtain ⟨thread', scope, running⟩ := isAtWork_iff.mp work
    cases waits.symm.trans running

/-- The capability of a released unit is called only for stragglers.

Take any moment in the course of a run at which the capability of a unit has been called to dispose
of its resources. From then on it is called only for commits that are waiting for the manager at
that moment, and that were already when the unit was not disposed. If the root has given up the
transaction of the tree by then, it is not called at all. Conversely, the leave of the manager for
such a commit calls it, unless the root has given up the transaction; no other action does. -/
theorem called_for_stragglers (managers : List Manager) (past : List Action) (ws : List World)
    (course : Course managers past ws) (u : Nat) :
    (∀ front w rest, ws = front ++ w :: rest →
      (∃ d, Parting.disposes d ∈ partings u (front ++ [w])) →
        (∀ c ∈ calls u (w :: rest), w.isAsking u c = true ∧
          ∃ v ∈ front, v.isAsking u c = true ∧ v.isDisposed u = false) ∧
        (w.hasYielded (w.rootOf u) = true → calls u (w :: rest) = [])) ∧
    let w := (initial managers).run past
    (∃ d, Parting.disposes d ∈ partings u ws) → ∀ a c,
      c ∈ callsBetween u w (w.perform a) ↔
        a = .answer (.operation c) (.allowed true) ∧ w.isAsking u c = true ∧
          w.hasYielded (w.rootOf u) = false := by
  constructor
  · intro front w rest split disposed
    have gone : w.isDisposed u = true :=
      (course.phase_of_split u split).isDisposed_iff.mpr disposed
    have after : (w :: rest).IsChain Follows :=
      (List.isChain_append.mp (split ▸ course.isChain)).2.1
    obtain ⟨x, unit, -⟩ := exists_of_isDisposed gone
    refine ⟨fun c call => ?_, calls_of_hasYielded after unit⟩
    have asking := isAsking_of_mem_calls after gone call
    exact ⟨asking, course.exists_isAsking_before split gone asking⟩
  · intro w disposed a c
    have gone : w.isDisposed u = true := (course.phase u).isDisposed_iff.mpr disposed
    exact mem_callsBetween_perform (orderly_run managers past) gone

/-- A nested unit is disposed of while its commit waits for the manager. -/
def overtaken : List Action :=
  [.openUnit ⟨"root", "shared", none, 0, 0, .default⟩, .answer (.operation 0) .done,
    .openUnit ⟨"leaf", "other", some 0, 0, 0, .default⟩, .answer (.operation 1) .done, .commit 1 0,
    .release 1 0 false, .answer (.operation 3) (.allowed true)]

/-- The capability of a nested unit is called after it was called to dispose of its resources. -/
theorem called_for_stragglers_overtaken :
    let w := (initial [.external]).run overtaken
    ∃ ws, Course [.external] overtaken ws ∧ (∃ d, Parting.disposes d ∈ partings 1 ws) ∧
      2 ∈ callsBetween 1 w (w.perform (.answer (.operation 2) (.allowed true))) := by
  intro w
  obtain ⟨ws, course⟩ := exists_course [.external] overtaken
  have gone : w.isDisposed 1 = true := rfl
  have disposed := (course.phase 1).isDisposed_iff.mp gone
  refine ⟨ws, course, disposed, ?_⟩
  exact ((called_for_stragglers [.external] overtaken ws course 1).2 disposed _ 2).mpr
    ⟨rfl, rfl, rfl⟩

end NestedWork.World
