import NestedWork.Proofs.World.Forest

/-!
# What a commit tells

A commit of a root returns what has become of the transaction of its tree. Its capability answers
first. Then the root aborts its transaction or commits it, and the response says which.

## Implementation notes

From the answer of the capability on, a commit is followed step by step: it is still committing the
transaction, or its response is settled. A settled response stands, together with what it says of
the root and of the transaction. A commit that has failed is remembered by its call, since the
reason that the transaction shows could change while a commit of it is still running.
-/

namespace NestedWork.World

variable {w w' : World} {l : Label} {c u thread n : Nat} {x : UnitOfWork} {s s' : Stage}
  {f : UnitOfWork → UnitOfWork} {actions : List Transaction.Action} {r r' : Response Unit}
  {scope : Scope}

/-! ## Settled responses -/

/-- A response that is settled is the one that the commit ends with. -/
theorem Judges.response?_eq {result : Response Unit} (judges : w.Judges u s scope result f)
    (settled : s.response? = some r) : result = r := by
  cases judges with
  | left | discarded => exact Option.some.inj settled
  | _ => cases settled

theorem Turns.response?_eq (turns : w.Turns c u x thread l s f n actions s')
    (settled : s.response? = some r) : s'.response? = some r := by
  cases turns with
  | finish judges | yield judges => exact congrArg some (judges.response?_eq settled)
  | discard | yielded => exact settled
  | leave leaves => cases leaves <;> cases settled
  | _ => cases settled

theorem Advances.response?_eq (h : Advances w w' l c u thread s s')
    (settled : s.response? = some r) : s'.response? = some r := by
  cases h with
  | stay => exact settled
  | answered waits => rcases waits with rfl | rfl | rfl <;> cases settled
  | turn unit turns after => exact turns.response?_eq settled

/-! ## Where data comes from -/

theorem Turns.isPastWork_back (turns : w.Turns c u x thread l s f n actions s')
    (past : s'.isPastWork = true) :
    s.isPastWork = true ∨ l = .respond c (.data ()) ∧ ∃ scope, s = .work scope := by
  cases turns with
  | succeed | complete => exact .inr ⟨rfl, _, rfl⟩
  | finish judges | yield judges =>
      left
      cases judges with
      | committed | failed => rfl
      | _ => exact past
  | yielded => exact .inl past
  | leave =>
      revert past
      split <;> rintro ⟨⟩
  | _ => cases past

/-- A commit whose capability has succeeded was so before, or has just been answered. -/
theorem Step.isPastWork_back (step : w.Step l w')
    (running : w'.operations[c]? = some ⟨u, thread, s'⟩) (past : s'.isPastWork = true) :
    (∃ s, w.operations[c]? = some ⟨u, thread, s⟩ ∧ s.isPastWork = true) ∨
      l = .respond c (.data ()) ∧ ∃ scope, w.operations[c]? = some ⟨u, thread, .work scope⟩ := by
  cases before : w.operations[c]? with
  | none =>
      rw [step.fresh before running] at past
      cases past
  | some o =>
      obtain ⟨v, thread', s⟩ := o
      obtain ⟨s'', after, advances⟩ := step.advances before
      cases running.symm.trans after
      cases advances with
      | stay => exact .inl ⟨_, rfl, past⟩
      | answered => cases past
      | turn unit turns =>
          rcases turns.isPastWork_back past with past | ⟨eq, scope, rfl⟩
          · exact .inl ⟨_, rfl, past⟩
          · exact .inr ⟨eq, scope, rfl⟩

theorem Steps.isPastWork_back (steps : w.Steps w')
    (running : w'.operations[c]? = some ⟨u, thread, s'⟩) (past : s'.isPastWork = true) :
    ∃ s, w.operations[c]? = some ⟨u, thread, s⟩ ∧ s.isPastWork = true := by
  induction steps generalizing s' with
  | refl => exact ⟨s', running, past⟩
  | tail _ step ih =>
      rcases step.isPastWork_back running past with ⟨s, before, past⟩ | ⟨eq, -⟩
      · exact ih before past
      · cases eq

/-- In the course of a run, the capability of a commit has answered. -/
def Answered (managers : List Manager) (past : List Action) (c u thread : Nat) (scope : Scope)
    (r : Response Unit) : Prop :=
  ∃ before after, past = before ++ .answer (.operation c) (.response r) :: after ∧
    ((initial managers).run before).operations[c]? = some ⟨u, thread, .work scope⟩

theorem Answered.append {managers : List Manager} {past : List Action}
    (h : Answered managers past c u thread scope r) (rest : List Action) :
    Answered managers (past ++ rest) c u thread scope r := by
  obtain ⟨before, after, rfl, running⟩ := h
  exact ⟨before, after ++ rest, by simp, running⟩

/-- A commit returns data only after its capability has answered so. -/
theorem exists_answered {managers : List Manager} {past : List Action}
    (running : ((initial managers).run past).operations[c]? = some ⟨u, thread, s⟩)
    (pastWork : s.isPastWork = true) :
    ∃ scope, Answered managers past c u thread scope (.data ()) := by
  induction past using List.reverseRecOn generalizing s with
  | nil => cases running
  | append_singleton past a ih =>
      have earlier {s : Stage}
          (before : ((initial managers).run past).operations[c]? = some ⟨u, thread, s⟩)
          (pastWork : s.isPastWork = true) :
          ∃ scope, Answered managers (past ++ [a]) c u thread scope (.data ()) := by
        obtain ⟨scope, answered⟩ := ih before pastWork
        exact ⟨scope, answered.append [a]⟩
      rw [run_append] at running
      have seated : ((initial managers).run past).Seated := (orderly_run managers past).seated
      rcases perform_cases seated a with
        ⟨n, -, step⟩ | ⟨d, r, rfl, -, -, -, w₁, -, step, rest⟩ | steps
      · rcases step.isPastWork_back running pastWork with ⟨s, before, pastWork⟩ | ⟨eq, -⟩
        · exact earlier before pastWork
        · cases eq
      · obtain ⟨s₁, between, pastWork⟩ := rest.isPastWork_back running pastWork
        rcases step.isPastWork_back between pastWork with ⟨s, before, pastWork⟩ | ⟨eq, scope, work⟩
        · exact earlier before pastWork
        · cases eq
          exact ⟨scope, past, [], rfl, work⟩
      · obtain ⟨s, before, pastWork⟩ := steps.isPastWork_back running pastWork
        exact earlier before pastWork

/-! ## Verdicts -/

/-- A root and the transaction of its tree have come to the same end. -/
structure Ended (w : World) (u n : Nat) (status : Status) : Prop where
  unit : ∃ x, w.units[u]? = some x ∧ x.isRoot = true ∧ x.status = status
  transaction : ∃ t, w.transactions[n]? = some t ∧ t.status = status

/-- A committed transaction has a committed root. -/
theorem Tree.ended {t : Transaction} (h : w.Tree u n) (lived : w.Lived)
    (transaction : w.transactions[n]? = some t) (committed : t.status = .committed) :
    w.Ended u n .committed := by
  obtain ⟨x, t', fate⟩ := h.fate
  obtain rfl := Option.some.inj (fate.transaction.symm.trans transaction)
  obtain ⟨x', unit, root, -⟩ := h.holds.root
  obtain rfl := Option.some.inj (fate.unit.symm.trans unit)
  have status := fate.status_of_committed (lived.sound transaction) committed
  exact ⟨⟨x, unit, root, status⟩, t', transaction, committed⟩

/-- What the commit of a root returns once its capability has answered, and what has then become of
the root and the transaction. -/
inductive Verdict (w : World) (u n : Nat) : Response Unit → Response Unit → Prop
  /-- An error of the capability is passed on. -/
  | refused {e : ResponseError} (ended : w.Ended u n .aborted) : Verdict w u n (.error e) (.error e)
  | committed (ended : w.Ended u n .committed) : Verdict w u n (.data ()) (.data ())
  /-- The capability has succeeded and the transaction has aborted all the same. -/
  | failed {x : UnitOfWork} {t : Transaction} {reason : AbortReason}
      (unit : w.units[u]? = some x) (transaction : w.transactions[n]? = some t)
      (why : t.abortReason = some reason) (ended : w.Ended u n .aborted) :
      Verdict w u n (.data ())
        (.error (.failure (.commitFailed x.id t.localId ⟨t.localId, reason⟩)))

/-- A response that is settled, and what it says. -/
inductive Stands (w : World) (u n : Nat) : Response Unit → Response Unit → Prop
  | refused {e : ResponseError} {x : UnitOfWork} (unit : w.units[u]? = some x)
      (aborted : x.status = .aborted) : Stands w u n (.error e) (.error e)
  | committed {t : Transaction} (transaction : w.transactions[n]? = some t)
      (committed : t.status = .committed) : Stands w u n (.data ()) (.data ())
  | failed {x : UnitOfWork} {t : Transaction} {j : Nat} {call : Call} {cause : Aborted}
      (unit : w.units[u]? = some x) (aborted : x.status = .aborted)
      (transaction : w.transactions[n]? = some t) (hc : t.calls[j]? = some call)
      (commit : call.isCommit) (returned : t.result? j = some (.error cause)) :
      Stands w u n (.data ()) (.error (.failure (.commitFailed x.id t.localId cause)))

/-- The only turns of an aborted unit are those of an operation that leaves it aborted. -/
theorem Turns.aborted (turns : w.Turns c u x thread l s f n actions s')
    (shown : s.isRunning = true → s.unitStatus? = some x.status) (aborted : x.status = .aborted) :
    (f x).status = .aborted := by
  cases busy : s.isRunning with
  | false => exact (turns.quiet busy).2.1.trans aborted
  | true =>
      have shown := shown busy
      cases turns with
      | finish judges | yield judges =>
          have status := judges.status_eq shown
          rw [aborted] at shown
          cases judges with
          | left | discarded => simpa [Response.unitStatus] using status
          | _ => cases shown
      | discard | yielded => exact aborted
      | leave leaves => cases leaves <;> exact aborted
      | decline | dispose | surrender => cases busy
      | _ => cases aborted ▸ shown

/-- An aborted unit stays aborted. -/
theorem Step.aborted (step : w.Step l w') (order : w.Orderly) (unit : w.units[u]? = some x)
    (aborted : x.status = .aborted) :
    ∃ x', w'.units[u]? = some x' ∧ x'.id = x.id ∧ x'.status = .aborted := by
  obtain ⟨x', after, id, -, -, status⟩ := step.forth unit
  refine ⟨x', after, id, ?_⟩
  rcases status with same | ⟨c, thread, n, s, s', f, actions, running, turns, rfl⟩
  · exact same.trans aborted
  · exact turns.aborted (fun busy => (order.shown running unit busy).2) aborted

/-- Every step keeps a settled response, and what it says. -/
theorem Stands.step (h : w.Stands u n r r') (order : w.Orderly) (lived : w.Lived)
    (step : w.Step l w') : w'.Stands u n r r' := by
  cases h with
  | refused unit aborted =>
      obtain ⟨x', after, -, status⟩ := step.aborted order unit aborted
      exact .refused after status
  | committed transaction committed =>
      obtain ⟨actions, after⟩ := step.transaction_forth transaction
      exact .committed after ((lived.sound transaction).committed_runAt committed actions)
  | @failed x t j call cause unit aborted transaction hc commit returned =>
      obtain ⟨x', unit', id, status⟩ := step.aborted order unit aborted
      obtain ⟨actions, after⟩ := step.transaction_forth transaction
      obtain ⟨call', hc', commit'⟩ := Transaction.isCommit_runAt hc commit w.now actions
      have there := Stands.failed (u := u) unit' status after hc' commit'
        (Transaction.result?_runAt returned actions)
      rwa [id, Transaction.localId_runAt] at there

/-- A settled response tells the fate of the tree. -/
theorem Stands.verdict (h : w.Stands u n r r') (lived : w.Lived) (tree : w.Tree u n) :
    w.Verdict u n r r' := by
  obtain ⟨x, t, fate⟩ := tree.fate
  obtain ⟨x₀, unit₀, root, -⟩ := tree.holds.root
  obtain rfl := Option.some.inj (fate.unit.symm.trans unit₀)
  cases h with
  | refused unit aborted =>
      obtain rfl := Option.some.inj (fate.unit.symm.trans unit)
      exact .refused ⟨⟨x, unit, root, aborted⟩, t, fate.transaction, fate.aborted aborted⟩
  | committed transaction committed =>
      exact .committed (tree.ended lived transaction committed)
  | @failed x₁ t₁ j call cause unit aborted transaction hc commit returned =>
      obtain rfl := Option.some.inj (fate.unit.symm.trans unit)
      obtain rfl := Option.some.inj (fate.transaction.symm.trans transaction)
      have sound := lived.sound transaction
      obtain ⟨finished, eq, why⟩ := sound.aborted_of_error hc commit returned fate.sole
      obtain ⟨localId, reason⟩ := cause
      obtain rfl : localId = t.localId := eq
      exact .failed unit transaction why ⟨⟨x, unit, root, aborted⟩, t, transaction, finished⟩

/-! ## From the answer to the verdict -/

/-- A commit of a root whose capability has answered: it is still committing the transaction, or its
response is settled. -/
def Bears (w : World) (c u thread n : Nat) (r : Response Unit) : Prop :=
  ∃ s, w.operations[c]? = some ⟨u, thread, s⟩ ∧
    ((∃ scope inner, s = .completing scope inner ∧ r = .data ()) ∨
      ∃ r', s.response? = some r' ∧ w.Stands u n r r')

/-- What the commit of the transaction returns settles the response. -/
theorem Judges.stands {inner : Inner} {result : Response Unit} {t : Transaction} {x' : UnitOfWork}
    (judges : w.Judges u (.completing scope inner) scope result f) (order : w.Orderly)
    (lived : w.Lived) (holds : w.Holds u n) (fate : w.Fate u n x t)
    (running : w.operations[c]? = some ⟨u, thread, .completing scope inner⟩) (step : w.Step l w')
    (unit : w'.units[u]? = some x') (id : x'.id = x.id) (status : x'.status = (f x).status) :
    w'.Stands u n (.data ()) result := by
  have sound := lived.sound fate.transaction
  have shown := (order.shown running fate.unit rfl).2
  have finished := fate.of_judges sound running shown judges
  obtain ⟨actions, after⟩ := step.transaction_forth fate.transaction
  cases judges with
  | committed => exact .committed after (sound.committed_runAt finished actions)
  | @failed scope inner cause returned =>
      obtain ⟨eq, call, hc, commit⟩ := fate.inner ⟨thread, scope, running⟩
      obtain ⟨call', hc', commit'⟩ := Transaction.isCommit_runAt hc commit w.now actions
      have error : t.result? inner.call = some (.error cause) := by
        simpa [World.result?, eq, fate.transaction] using returned
      have here : scope.transaction = n := by
        obtain ⟨x₀, unit₀, root, -⟩ := holds.root
        obtain ⟨owner, -⟩ := order.entered running unit₀ rfl
        exact (holds.scopes running rfl (owner.trans root)).mpr rfl
      have told : w.commitFailure u scope.transaction cause =
          .commitFailed x'.id (t.runAt w.now actions).localId cause := by
        rw [id, Transaction.localId_runAt]
        simp [commitFailure, here, fate.unit, fate.transaction]
      rw [told]
      exact .failed unit status after hc' commit' (Transaction.result?_runAt error actions)

/-- Every step takes a commit that has been answered on towards its verdict. -/
theorem Bears.step (h : w.Bears c u thread n r) (order : w.Orderly) (lived : w.Lived)
    (tree : w.Tree u n) (step : w.Step l w') : w'.Bears c u thread n r := by
  obtain ⟨s, running, state⟩ := h
  obtain ⟨s', after, advances⟩ := step.advances running
  refine ⟨s', after, ?_⟩
  rcases state with ⟨scope, inner, rfl, rfl⟩ | ⟨r', settled, stands⟩
  · obtain ⟨x, t, fate⟩ := tree.fate
    cases advances with
    | stay => exact .inl ⟨scope, inner, rfl, rfl⟩
    | answered waits => rcases waits with eq | eq | eq <;> cases eq
    | turn unit turns eq =>
        obtain rfl := Option.some.inj (fate.unit.symm.trans unit)
        have unit' : w'.units[u]? = some _ := eq ▸ units_evolve unit
        cases turns with
        | finish judges | yield judges =>
            cases judges.running.2
            refine .inr ⟨_, rfl, judges.stands order lived tree.holds fate running step unit' ?_ ?_⟩
            · simp [judges.kept x]
            · simp
        | leave leaves => cases leaves
  · exact .inr ⟨r', advances.response?_eq settled, stands.step order lived step⟩

/-- The answer of the capability of a root. -/
theorem Step.bears {w₁ : World} (step : w.Step (.respond c r) w₁)
    (order : w.Orderly) (tree : w.Tree u n)
    (running : w.operations[c]? = some ⟨u, thread, .work scope⟩) : w₁.Bears c u thread n r := by
  obtain ⟨x, unit, root, -⟩ := tree.holds.root
  have owner := (order.entered running unit rfl).1.trans root
  cases step with
  | turn running' unit' turns =>
      cases turns with
      | fail e =>
          cases running.symm.trans running'
          refine ⟨_, operations_evolve running, .inr ⟨_, rfl, ?_⟩⟩
          exact .refused (units_evolve unit) rfl
      | succeed joined =>
          cases running.symm.trans running'
          cases owner.symm.trans joined
      | complete =>
          cases running.symm.trans running'
          exact ⟨_, operations_evolve running, .inl ⟨_, _, rfl, rfl⟩⟩

section Run

variable {managers : List Manager} {past rest : List Action}

/-- A unit is a root for good or never. -/
theorem exists_unit_run (rest : List Action)
    (unit : ((initial managers).run past).units[u]? = some x) :
    ∃ x', ((initial managers).run (past ++ rest)).units[u]? = some x' ∧ x'.isRoot = x.isRoot := by
  refine run_induction (P := fun w => ∃ x', w.units[u]? = some x' ∧ x'.isRoot = x.isRoot)
    managers rest ⟨x, unit, rfl⟩ ?_
  rintro w w' l - ⟨x₀, unit₀, same⟩ step
  obtain ⟨x', after, -, lineage, -⟩ := step.forth unit₀
  exact ⟨x', after, by rw [← same, UnitOfWork.isRoot, lineage, UnitOfWork.isRoot]⟩

/-- From the answer of the capability of a root on, the commit is on its way to a verdict on the
transaction that the capability has worked in. -/
theorem Answered.bears (h : Answered managers past c u thread scope r)
    (offered : Offered managers past)
    (unit : ((initial managers).run past).units[u]? = some x) (root : x.isRoot = true) :
    Shared managers past u scope.transaction ∧
      ((initial managers).run past).Bears c u thread scope.transaction r := by
  obtain ⟨before, after, rfl, work⟩ := h
  have woven := woven_run offered.of_append
  obtain ⟨x₀, unit₀⟩ := woven.order.seated work rfl
  obtain ⟨x', unit', same⟩ :=
    exists_unit_run (.answer (.operation c) (.response r) :: after) unit₀
  obtain rfl := Option.some.inj (unit.symm.trans unit')
  have owner : scope.owner = true :=
    (woven.order.entered work unit₀ rfl).1.trans (same.symm.trans root)
  have shares : ((initial managers).run before).Shares u scope.transaction :=
    .inr ⟨c, thread, _, scope, work, rfl, owner, rfl⟩
  have shared : Shared managers before u scope.transaction := ⟨before, List.prefix_rfl, shares⟩
  refine ⟨shared.append _, ?_⟩
  obtain ⟨u', thread', scope', w₁, -, first, steps⟩ := responds_answer woven.order.seated work r
  have answered : ((initial managers).run
      (before ++ [.answer (.operation c) (.response r)])).Bears c u thread scope.transaction r := by
    rw [run_append]
    refine (steps.preserve (P := fun w => w.Woven (Shared managers before) ∧
      w.Bears c u thread scope.transaction r) ⟨?_, ?_⟩ ?_).2
    · exact woven.step first (by simp)
    · exact first.bears woven.order (woven.trees (.inr shares)) work
    · rintro w w' l ⟨woven, bears⟩ step free
      exact ⟨woven.step step fun _ m _ => free m,
        bears.step woven.order woven.lived (woven.trees (.inl shared)) step⟩
  rw [List.append_cons] at offered ⊢
  exact run_induction_of_shared (P := fun w => w.Bears c u thread scope.transaction r) offered
    (shared.append _) answered fun order lived tree bears step => bears.step order lived tree step

/-- A commit of a root that has returned after the answer of its capability tells the fate. -/
theorem Answered.verdict {result : Answer} (h : Answered managers past c u thread scope r)
    (offered : Offered managers (past ++ rest))
    (finished : ((initial managers).run past).operations[c]? = some ⟨u, thread, .done result⟩)
    (unit : ((initial managers).run past).units[u]? = some x) (root : x.isRoot = true) :
    ∃ r', result = .commit (.ok r') ∧
      ((initial managers).run (past ++ rest)).Verdict u scope.transaction r r' := by
  obtain ⟨shared, s, running, state⟩ := h.bears offered.of_append unit root
  obtain rfl : s = .done result := by
    cases running.symm.trans finished
    rfl
  rcases state with ⟨scope', inner, eq, -⟩ | ⟨r', settled, stands⟩
  · cases eq
  · have woven := woven_run offered
    have tree := woven.trees (.inl (shared.append rest))
    have later := run_induction_of_shared (P := fun w => w.Stands u scope.transaction r r')
      offered shared stands fun order lived _ stands step => stands.step order lived step
    exact ⟨r', Stage.response?_done settled, later.verdict woven.lived tree⟩

/-- The commit of a root tells the fate of the transaction of its tree, then and ever after.

`past` ends where a commit is seen to have returned, and `rest` is what happens later. A commit
that returns data has committed both the root and the transaction. Once its capability has answered,
a commit returns the error of the capability, data, or a failure with the reason of the abort, and
root and transaction have come to the same end. -/
theorem commit_tells_fate (managers : List Manager) (past rest : List Action)
    (offered : Offered managers (past ++ rest)) :
    let w := (initial managers).run past
    let w' := (initial managers).run (past ++ rest)
    (∀ (c u thread : Nat) (x : UnitOfWork) (result : Answer),
      w.operations[c]? = some ⟨u, thread, .done result⟩ → w.units[u]? = some x →
        x.isRoot = true →
          (result = .commit (.ok (.data ())) → ∃ scope,
            Answered managers past c u thread scope (.data ()) ∧
              w'.Ended u scope.transaction .committed) ∧
          ∀ (scope : Scope) (r : Response Unit), Answered managers past c u thread scope r →
            ∃ r', result = .commit (.ok r') ∧ w'.Verdict u scope.transaction r r') ∧
    ∀ (u n : Nat) (t : Transaction), Shared managers past u n → w'.transactions[n]? = some t →
      t.status = .committed →
        ∃ x, w'.units[u]? = some x ∧ x.isRoot = true ∧ x.status = .committed := by
  intro w w'
  constructor
  · intro c u thread x result finished unit root
    constructor
    · rintro rfl
      obtain ⟨scope, answered⟩ := exists_answered finished rfl
      obtain ⟨r', eq, verdict⟩ := answered.verdict offered finished unit root
      cases eq
      cases verdict with
      | committed ended => exact ⟨scope, answered, ended⟩
    · intro scope r answered
      exact answered.verdict offered finished unit root
  · intro u n t shared transaction committed
    have woven := woven_run offered
    have tree := woven.trees (.inl (shared.append rest))
    exact (tree.ended woven.lived transaction committed).unit

/-- A root is committed, and disposed of while a participant prepares. -/
def disposing : List Action :=
  [.openUnit ⟨"root", "shared", none, 0, 0, .default⟩, .commit 0 0, .enlist 0 7,
    .answer (.operation 1) (.response (.data ())), .release 0 0 false,
    .answer (.operation 2) .done, .answer (.operation 1) (.vote .prepared),
    .answer (.operation 1) .done]

/-- The commit of a root that is disposed of in the middle of it. -/
theorem commit_tells_fate_disposing :
    let w := (initial [.permissive]).run disposing
    (Offered [.permissive] (disposing ++ [.tick 1]) ∧
      w.operations[1]? = some ⟨0, 0, .done (.commit (.ok (.data ())))⟩) ∧
    ∃ scope, Answered [.permissive] disposing 1 0 0 scope (.data ()) ∧
      ((initial [.permissive]).run (disposing ++ [.tick 1])).Ended 0 scope.transaction
        .committed := by
  intro w
  have offered : Offered [.permissive] (disposing ++ [.tick 1]) := by
    intro before after n eq
    have mem : Action.call n .commit ∈ disposing ++ [.tick 1] := by
      rw [eq]
      exact List.mem_append_right _ (List.mem_cons_self ..)
    simp [disposing] at mem
  have finished : w.operations[1]? = some ⟨0, 0, .done (.commit (.ok (.data ())))⟩ := rfl
  obtain ⟨x, unit, root⟩ : ∃ x, w.units[0]? = some x ∧ x.isRoot = true := ⟨_, rfl, rfl⟩
  have told := commit_tells_fate [.permissive] disposing [.tick 1] offered
  exact ⟨⟨offered, finished⟩, (told.1 1 0 0 x _ finished unit root).1 rfl⟩

end Run

end NestedWork.World
