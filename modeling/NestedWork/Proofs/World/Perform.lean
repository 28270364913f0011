import NestedWork.Proofs.World.Open
import NestedWork.Proofs.World.Release

/-!
# Every action is made of steps

An action of the environment is a run of steps. Two actions begin with a step that is labelled: a
client that commits a transaction, and a capability that answers.
-/

namespace NestedWork.World

variable {w : World} {c u n : Nat} {s : Stage}

/-- What is under way goes on once the call it waits for has returned. -/
theorem steps_resume (seated : w.Seated) (c : Nat) : w.Steps (w.resume c) := by
  unfold resume
  split
  next => exact .refl
  next o running =>
    obtain ⟨u, thread, s⟩ := o
    have unit := seated running
    cases s with
    | leaving scope e i =>
        obtain ⟨x, unit⟩ := unit rfl
        dsimp only
        split
        · exact steps_discardDependent running unit ‹_›
        · exact .refl
    | discarding scope e i =>
        obtain ⟨x, unit⟩ := unit rfl
        dsimp only
        split
        next r finished =>
          have last := steps_yieldHandle running unit (.discarded finished)
          rwa [modifyUnit_id] at last
        next => exact .refl
    | completing scope i =>
        obtain ⟨x, unit⟩ := unit rfl
        dsimp only
        split
        · exact steps_transactionReturned running unit ‹_›
        · exact .refl
    | yielding result i =>
        obtain ⟨x, unit⟩ := unit rfl
        dsimp only
        split
        next r finished =>
          have last : w.Step .quiet (w.evolve c u .finish 0 [] _) :=
            .turn running unit (.yielded finished)
          rw [evolve_finish] at last
          exact last.steps
        next => exact .refl
    | surrender i =>
        obtain ⟨x, unit⟩ := unit rfl
        dsimp only
        split
        next r finished =>
          have last := steps_bidFarewell running unit (.surrendered finished)
          rwa [modifyUnit_id] at last
        next => exact .refl
    | _ => exact .refl

/-- What a turn of a call does: some steps of its transaction, and what is under way goes on. -/
theorem onInner_eq {i : Inner} {f : Transaction → Nat → Transaction}
    {b : Nat → List Transaction.Action} {a : Activity} (inner : w.innerOf a = some i)
    (same : ∀ t i, f t i = t.runAt w.now (b i)) :
    w.onInner a f = (w.transact i.transaction
      (b i.call ++ Transaction.strides i.call)).resumeActivity a := by
  simp only [onInner, inner, transact, Transaction.settle_eq, same, Transaction.runAt_append]

/-- A turn of the call that something under way waits for or is, and all that follows, is a run of
steps. -/
theorem steps_onInner (seated : w.Seated) (a : Activity) (f : Transaction → Nat → Transaction)
    (b : Nat → List Transaction.Action) (mild : ∀ i, ∀ x ∈ b i, x ≠ .begin .commit)
    (same : ∀ t i, f t i = t.runAt w.now (b i)) : w.Steps (w.onInner a f) := by
  cases inner : w.innerOf a with
  | none =>
      simp only [onInner, inner]
      exact .refl
  | some i =>
      have move := Step.transact (w := w) i.transaction (b i.call ++ Transaction.strides i.call) (by
        intro x mem
        exact (List.mem_append.mp mem).elim (mild _ x) (Transaction.mild_strides _ x))
      rw [onInner_eq inner same]
      apply move.steps.trans
      cases a with
      | call => exact .refl
      | operation c => exact steps_resume (w := w.transact _ _) seated c

/-- The answer of a capability: a step of its own, and all that follows. -/
def Responds (w : World) (c : Nat) (r : Response Unit) (w' : World) : Prop :=
  ∃ u thread scope w₁, w.operations[c]? = some ⟨u, thread, .work scope⟩ ∧
    w.Step (.respond c r) w₁ ∧ w₁.Steps w'

theorem responds_answerOperation (seated : w.Seated) {u thread : Nat} {scope : Scope}
    (running : w.operations[c]? = some ⟨u, thread, .work scope⟩) (r : Response Unit) :
    w.Responds c r (w.answerOperation c ⟨u, thread, .work scope⟩ (.response r)) := by
  obtain ⟨x, unit⟩ := seated running rfl
  cases r with
  | data =>
      obtain ⟨w₁, first, rest⟩ := steps_workSucceeded running unit
      exact ⟨u, thread, scope, w₁, running, first, rest⟩
  | error e =>
      obtain ⟨w₁, first, rest⟩ := steps_workFailed e running unit
      exact ⟨u, thread, scope, w₁, running, first, rest⟩

/-- A capability that is at work answers. -/
theorem responds_answer (seated : w.Seated) {u thread : Nat} {scope : Scope}
    (running : w.operations[c]? = some ⟨u, thread, .work scope⟩) (r : Response Unit) :
    w.Responds c r (w.answer (.operation c) (.response r)) := by
  simpa only [answer, running] using responds_answerOperation seated running r

/-- An answer to an operation is a run of steps, or the answer of a capability. -/
theorem steps_answerOperation (seated : w.Seated) {u thread : Nat}
    (running : w.operations[c]? = some ⟨u, thread, s⟩) (reply : Reply) :
    (∃ r, reply = .response r ∧ w.Responds c r (w.answerOperation c ⟨u, thread, s⟩ reply)) ∨
      w.Steps (w.answerOperation c ⟨u, thread, s⟩ reply) := by
  cases s with
  | admission =>
      cases reply with
      | allowed yes => exact .inr (steps_admitted running yes)
      | _ => exact .inr .refl
  | permission dropping =>
      cases reply with
      | allowed yes => exact .inr (steps_permitted running yes)
      | _ => exact .inr .refl
  | work scope =>
      cases reply with
      | response r => exact .inl ⟨r, rfl, responds_answerOperation seated running r⟩
      | _ => exact .inr .refl
  | disposal =>
      obtain ⟨x, unit⟩ := seated running rfl
      cases reply with
      | done => exact .inr (steps_resourcesDisposed running unit)
      | _ => exact .inr .refl
  | rollback =>
      cases reply with
      | done => exact .inr (Step.answered running (.inl rfl)).steps
      | _ => exact .inr .refl
  | farewell =>
      cases reply with
      | done => exact .inr (Step.answered running (.inr (.inl rfl))).steps
      | _ => exact .inr .refl
  | welcome =>
      cases reply with
      | done => exact .inr (Step.answered running (.inr (.inr rfl))).steps
      | _ => exact .inr .refl
  | _ => exact .inr .refl

/-- An answer is a run of steps, or the answer of a capability. -/
theorem steps_answer (seated : w.Seated) (a : Activity) (reply : Reply) :
    (∃ c r, a = .operation c ∧ reply = .response r ∧ w.Responds c r (w.answer a reply)) ∨
      w.Steps (w.answer a reply) := by
  have operation (c : Nat) (w' : World) (answers : (∀ o, w.operations[c]? = some o →
      w' = w.answerOperation c o reply) ∧ (w.operations[c]? = none → w' = w)) :
      (∃ r, reply = .response r ∧ w.Responds c r w') ∨ w.Steps w' := by
    cases running : w.operations[c]? with
    | none =>
        rw [answers.2 running]
        exact .inr .refl
    | some o =>
        rw [answers.1 o running]
        exact steps_answerOperation seated running reply
  cases reply with
  | vote v =>
      exact .inr (steps_onInner seated a (fun t i => t.vote i v) (fun i => [.vote i v]) (by simp)
        fun _ _ => rfl)
  | done =>
      right
      have acknowledge := steps_onInner seated a (fun t i => t.acknowledge i)
        (fun i => [.acknowledge i]) (by simp) fun _ _ => rfl
      cases inner : w.innerOf a with
      | some i => simpa only [answer, inner] using acknowledge
      | none =>
          cases a with
          | call => cases inner
          | operation c =>
              have here := operation c (w.answer (.operation c) .done)
                ⟨fun o running => by simp only [answer, inner, running],
                  fun running => by simp only [answer, inner, running]⟩
              rcases here with ⟨r, eq, -⟩ | steps
              · cases eq
              · exact steps
  | allowed yes =>
      cases a with
      | call => exact .inr .refl
      | operation c =>
          have here := operation c (w.answer (.operation c) (.allowed yes))
            ⟨fun o running => by simp only [answer, running],
              fun running => by simp only [answer, running]⟩
          rcases here with ⟨r, eq, -⟩ | steps
          · cases eq
          · exact .inr steps
  | response r =>
      cases a with
      | call => exact .inr .refl
      | operation c =>
          have here := operation c (w.answer (.operation c) (.response r))
            ⟨fun o running => by simp only [answer, running],
              fun running => by simp only [answer, running]⟩
          rcases here with ⟨r', eq, responds⟩ | steps
          · cases eq
            exact .inl ⟨c, r, rfl, rfl, responds⟩
          · exact .inr steps

/-- What an action does: a client commits a transaction, a capability answers, or there are only
steps that are nobody's in particular. -/
theorem perform_cases (seated : w.Seated) (a : Action) :
    (∃ n, a = .call n .commit ∧ w.Step (.commit n) (w.perform a)) ∨
      (∃ c r, a = .answer (.operation c) (.response r) ∧ w.Responds c r (w.perform a)) ∨
      w.Steps (w.perform a) := by
  cases a with
  | openUnit o =>
      right
      right
      rw [perform]
      cases opened : w.openUnit o with
      | error => exact .refl
      | ok w' => exact steps_openUnit o opened
  | commit u thread => exact .inr (.inr (w.steps_beginCommit u thread))
  | release u thread dropping => exact .inr (.inr (w.steps_beginRelease u thread dropping))
  | rollback u thread => exact .inr (.inr (Step.push (.inl rfl) u thread).steps)
  | openTransaction localId options =>
      exact .inr (.inr (Step.openTransaction localId options).steps)
  | enlist n participant =>
      exact .inr (.inr (Step.transact n [.enlist participant] (by simp)).steps)
  | issue n mode => exact .inr (.inr (Step.transact n [.issue mode] (by simp)).steps)
  | call n purpose =>
      rw [perform, call_eq]
      by_cases commit : purpose = .commit
      · subst commit
        exact .inl ⟨n, rfl, .commit n⟩
      · exact .inr (.inr (Step.transact n _ (w.mild_callSteps n commit)).steps)
  | answer a reply =>
      right
      rcases steps_answer seated a reply with ⟨c, r, rfl, rfl, responds⟩ | steps
      · exact .inl ⟨c, r, rfl, responds⟩
      · exact .inr steps
  | turn a =>
      exact .inr (.inr (steps_onInner seated a (fun t _ => t) (fun _ => []) (by simp)
        fun _ _ => rfl))
  | rouse a =>
      exact .inr (.inr (steps_onInner seated a (fun t i => t.rouse i) (fun i => [.rouse i])
        (by simp) fun _ _ => rfl))
  | tick nanos => exact .inr (.inr (Step.tick nanos).steps)

end NestedWork.World
