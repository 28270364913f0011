import NestedWork.Proofs.World.Return

/-!
# A failure dooms the tree

When the capability of a unit fails while the transaction of its tree is not committed, the unit and
the transaction are aborted, whatever path the commit has taken into the transaction. From then on
no commit of the root returns data. One whose capability succeeds, or has succeeded before, returns
that the transaction has failed.

## Implementation notes

A commit that has failed and a commit of the root that has succeeded are each followed from the
answer of the capability on. Both come to their return since the fate of the transaction is decided,
also where the root was waiting for others or asking the participants meanwhile.
-/

namespace NestedWork.World

variable {w w' : World} {l : Label} {c d u v r thread thread' n : Nat} {x : UnitOfWork}
  {s s' : Stage} {scope scope' : Scope} {e : ResponseError} {told told' : Response Unit}

/-- A commit that is on its way to its return stays so, with the response that is settled. -/
theorem Concludes.settled (h : w.Concludes c u thread n s) (settled : s.response? = some told)
    (lt : n < w.transactions.length) (step : w.Step l w') :
    ∃ s', w'.Concludes c u thread n s' ∧ s'.response? = some told := by
  obtain ⟨s', concludes, advances⟩ := h.step lt step
  exact ⟨s', concludes, advances.response?_eq settled⟩

/-- The answer of a capability settles the response of the commit, unless it has still to complete
the transaction. -/
theorem Step.concludes (step : w.Step (.respond c told) w') (order : w.Orderly)
    (running : w.operations[c]? = some ⟨u, thread, .work scope⟩) :
    ∃ s', w'.Concludes c u thread scope.transaction s' ∧
      (told = .data () ∧ (∃ scope inner, s' = .completing scope inner) ∨
        s'.response? = some told) := by
  cases step with
  | @turn _ d v thread' m x s s' f actions running' unit turns =>
      obtain rfl : d = c := by cases turns <;> rfl
      cases running.symm.trans running'
      have lt := (order.entered running unit rfl).2
      refine ⟨s', turns.concludes running (.inr ⟨scope, rfl⟩) ?_ lt, ?_⟩
      · rintro _ ⟨⟩
        rfl
      · cases turns with
        | fail | succeed => exact .inr rfl
        | complete => exact .inl ⟨rfl, _, _, rfl⟩

/-! ## The unit that has failed -/

/-- A commit whose capability has failed: its unit and its transaction are aborted, and it is to
return the error. -/
structure Doomed (w : World) (c u thread n : Nat) (e : ResponseError) : Prop where
  unit : ∃ x, w.units[u]? = some x ∧ x.status = .aborted
  transaction : ∃ t, w.transactions[n]? = some t ∧ t.status = .aborted
  commit : ∃ s, w.Concludes c u thread n s ∧ s.response? = some (.error e)

/-- Every step leaves it so. -/
theorem Doomed.step (h : w.Doomed c u thread n e) (order : w.Orderly) (step : w.Step l w') :
    w'.Doomed c u thread n e where
  unit := by
    obtain ⟨x, unit, aborted⟩ := h.unit
    obtain ⟨x', after, -, aborted'⟩ := step.aborted order unit aborted
    exact ⟨x', after, aborted'⟩
  transaction := by
    obtain ⟨t, transaction, aborted⟩ := h.transaction
    obtain ⟨actions, after⟩ := step.transaction_forth transaction
    exact ⟨_, after, Transaction.run_aborted aborted _⟩
  commit := by
    obtain ⟨t, transaction, -⟩ := h.transaction
    obtain ⟨s, concludes, settled⟩ := h.commit
    exact concludes.settled settled (List.getElem?_eq_some_iff.mp transaction).1 step

/-- The failure of a capability aborts the unit, and the transaction unless that is committed. -/
theorem Step.doomed {t : Transaction} (step : w.Step (.respond c (.error e)) w') (order : w.Orderly)
    (lived : w.Lived) (running : w.operations[c]? = some ⟨u, thread, .work scope⟩)
    (transaction : w.transactions[scope.transaction]? = some t) (open' : t.status ≠ .committed) :
    w'.Doomed c u thread scope.transaction e := by
  obtain ⟨s', concludes, state⟩ := step.concludes order running
  have settled : s'.response? = some (.error e) := state.resolve_left fun ⟨eq, _⟩ => nomatch eq
  cases step with
  | turn running' unit turns =>
      cases turns with
      | fail =>
          cases running.symm.trans running'
          constructor
          · exact ⟨_, units_evolve unit, rfl⟩
          · have sound := Lived.sound lived transaction
            exact ⟨_, transactions_evolve transaction, sound.aborted_of_abort open' w.now _ _⟩
          · exact ⟨s', concludes, settled⟩

/-! ## The root that learns of it -/

/-- What a failed commit of a transaction is reported with does not change. -/
theorem Step.commitFailure_eq {t : Transaction} (step : w.Step l w')
    (unit : w.units[u]? = some x) (transaction : w.transactions[n]? = some t) (cause : Aborted) :
    w'.commitFailure u n cause = w.commitFailure u n cause := by
  obtain ⟨x', unit', id, -⟩ := step.forth unit
  obtain ⟨actions, transaction'⟩ := step.transaction_forth transaction
  simp only [commitFailure, unit, unit', transaction, transaction', id, Transaction.localId_runAt]

/-- What a commit may return once its capability has succeeded. -/
def Tells (w : World) (r n : Nat) (told : Response Unit) : Prop :=
  told = .data () ∨ ∃ cause, told = .error (.failure (w.commitFailure r n cause))

/-- A commit whose capability has succeeded: it is completing the transaction, or is to return what
has come of that. -/
structure Learns (w : World) (d r thread n : Nat) : Prop where
  unit : ∃ x, w.units[r]? = some x
  transaction : ∃ t, w.transactions[n]? = some t
  commit : ∃ s, w.Concludes d r thread n s ∧
    ((∃ scope inner, s = .completing scope inner) ∨
      ∃ told, s.response? = some told ∧ w.Tells r n told)

theorem Learns.step (h : w.Learns d r thread n) (step : w.Step l w') : w'.Learns d r thread n := by
  obtain ⟨x, unit⟩ := h.unit
  obtain ⟨t, transaction⟩ := h.transaction
  obtain ⟨s, concludes, state⟩ := h.commit
  have lt := (List.getElem?_eq_some_iff.mp transaction).1
  obtain ⟨x', unit', -⟩ := step.forth unit
  obtain ⟨actions, transaction'⟩ := step.transaction_forth transaction
  have tells {told : Response Unit} (before : w.Tells r n told) : w'.Tells r n told := by
    simpa only [Tells, step.commitFailure_eq unit transaction] using before
  refine ⟨⟨x', unit'⟩, ⟨_, transaction'⟩, ?_⟩
  rcases state with ⟨scope, inner, rfl⟩ | ⟨told, settled, before⟩
  · obtain ⟨s', after, advances⟩ := concludes.step lt step
    refine ⟨s', after, ?_⟩
    cases advances with
    | stay => exact .inl ⟨scope, inner, rfl⟩
    | answered waits => rcases waits with eq | eq | eq <;> cases eq
    | turn unit turns =>
        cases turns with
        | finish judges | yield judges =>
            refine .inr ⟨_, rfl, tells ?_⟩
            cases judges with
            | committed => exact .inl rfl
            | failed => exact .inr ⟨_, by rw [concludes.scope scope rfl]⟩
        | leave leaves => cases leaves
  · obtain ⟨s', after, same⟩ := concludes.settled settled lt step
    exact ⟨s', after, .inr ⟨told, same, tells before⟩⟩

/-- The success of a capability. -/
theorem Step.learns (step : w.Step (.respond d (.data ())) w') (order : w.Orderly)
    (running : w.operations[d]? = some ⟨r, thread, .work scope⟩) :
    w'.Learns d r thread scope.transaction := by
  obtain ⟨x, unit⟩ := order.seated running rfl
  have lt := (order.entered running unit rfl).2
  obtain ⟨x', unit', -⟩ := step.forth unit
  obtain ⟨actions, transaction'⟩ := step.transaction_forth (List.getElem?_eq_getElem lt)
  obtain ⟨s', concludes, state⟩ := step.concludes order running
  refine ⟨⟨x', unit'⟩, ⟨_, transaction'⟩, s', concludes, ?_⟩
  rcases state with ⟨-, completing⟩ | settled
  · exact .inl completing
  · exact .inr ⟨_, settled, .inl rfl⟩

/-- A root whose transaction has aborted returns no data. -/
theorem Doomed.response?_ne (h : w.Doomed c u thread n e) (stem : w.Stem r n)
    (running : w.operations[d]? = some ⟨r, thread', s⟩) : s.response? ≠ some (.data ()) := by
  intro settled
  obtain ⟨t, transaction, aborted⟩ := h.transaction
  obtain ⟨t', transaction', committed⟩ := stem.settled running settled
  obtain rfl := Option.some.inj (transaction.symm.trans transaction')
  cases aborted.symm.trans committed

/-! ## Runs -/

section Run

variable {managers : List Manager} {before past rest : List Action}

/-- What holds after the answer of a capability and is kept by every step holds from then on. -/
theorem run_induction_of_answer {P : World → Prop} (rest : List Action)
    (work : ((initial managers).run before).operations[c]? = some ⟨u, thread, .work scope⟩)
    (first : ∀ {w' : World}, ((initial managers).run before).Step (.respond c told) w' → P w')
    (step : ∀ {w w' : World} {l : Label}, w.Stemmed → P w → w.Step l w' → P w') :
    P ((initial managers).run (before ++ .answer (.operation c) (.response told) :: rest)) := by
  have stemmed := stemmed_run managers before
  have both : ∀ {w w' : World} {l : Label}, w.Stemmed ∧ P w → w.Step l w' → w'.Stemmed ∧ P w' :=
    fun h s => ⟨h.1.step s, step h.1 h.2 s⟩
  obtain ⟨-, -, -, w₁, -, answers, steps⟩ := responds_answer stemmed.order.seated work told
  have answered : ((initial managers).run
      (before ++ [.answer (.operation c) (.response told)])).Stemmed ∧
        P ((initial managers).run (before ++ [.answer (.operation c) (.response told)])) := by
    rw [run_append]
    exact steps.preserve (P := fun w => w.Stemmed ∧ P w) ⟨stemmed.step answers, first answers⟩
      fun h s _ => both h s
  rw [List.append_cons]
  exact (run_induction (P := fun w => w.Stemmed ∧ P w) managers rest answered
    fun _ h s => both h s).2

/-- A unit stays in its tree. -/
theorem rootOf_run (rest : List Action)
    (unit : ((initial managers).run before).units[u]? = some x) :
    ((initial managers).run (before ++ rest)).rootOf u =
      ((initial managers).run before).rootOf u := by
  refine (run_induction (P := fun w => (∃ x, w.units[u]? = some x) ∧
    w.rootOf u = ((initial managers).run before).rootOf u) managers rest ⟨⟨x, unit⟩, rfl⟩ ?_).2
  rintro w w' l - ⟨⟨x, unit⟩, same⟩ step
  obtain ⟨x', unit', -⟩ := step.forth unit
  exact ⟨⟨x', unit'⟩, (step.rootOf_eq unit).trans same⟩

/-- A root keeps the transaction of its tree through a run. -/
theorem Stem.run (h : ((initial managers).run before).Stem r n) (rest : List Action) :
    ((initial managers).run (before ++ rest)).Stem r n :=
  (run_induction (P := fun w => w.Stemmed ∧ w.Stem r n) managers rest
    ⟨stemmed_run managers before, h⟩ fun _ h step => ⟨h.1.step step, h.1.stem h.2 step⟩).2

/-- Whoever comes to work in a tree later works in the same transaction. -/
theorem transaction_eq_of_work
    (work : ((initial managers).run before).operations[c]? = some ⟨u, thread, .work scope⟩)
    (work' : ((initial managers).run (before ++ rest)).operations[d]? =
      some ⟨v, thread', .work scope'⟩) (isPrefix : before ++ rest <+: past)
    (tree : ((initial managers).run past).rootOf u = ((initial managers).run past).rootOf v) :
    scope'.transaction = scope.transaction := by
  obtain ⟨more, rfl⟩ := isPrefix
  have stemmed := stemmed_run managers before
  obtain ⟨x, unit⟩ := stemmed.order.seated work rfl
  obtain ⟨y, unit'⟩ := (stemmed_run managers (before ++ rest)).order.seated work' rfl
  have top : ((initial managers).run (before ++ rest)).rootOf v =
      ((initial managers).run before).rootOf u :=
    calc _ = ((initial managers).run (before ++ rest ++ more)).rootOf v :=
          (rootOf_run more unit').symm
      _ = ((initial managers).run (before ++ rest ++ more)).rootOf u := tree.symm
      _ = _ := by rw [List.append_assoc, rootOf_run _ unit]
  have stem := (stemmed.working work rfl).run rest
  exact stem.scopes work' rfl top

/-- All commits of a tree work in one transaction. -/
theorem Answered.transaction_eq (h : Answered managers past c u thread scope told)
    (h' : Answered managers past d v thread' scope' told')
    (tree : ((initial managers).run past).rootOf u = ((initial managers).run past).rootOf v) :
    scope.transaction = scope'.transaction := by
  obtain ⟨before, after, eq, work⟩ := h
  obtain ⟨before', after', eq', work'⟩ := h'
  have isPrefix : before <+: past := ⟨_, eq.symm⟩
  have isPrefix' : before' <+: past := ⟨_, eq'.symm⟩
  -- One of the two has come to work before the other.
  rcases List.prefix_or_prefix_of_prefix isPrefix isPrefix' with ⟨rest, rfl⟩ | ⟨rest, rfl⟩
  · exact (transaction_eq_of_work work work' isPrefix' tree).symm
  · exact transaction_eq_of_work work' work isPrefix tree.symm

/-- A commit whose capability has succeeded in the course of a run. -/
theorem Answered.learns (h : Answered managers past d r thread scope (.data ())) :
    ((initial managers).run past).Learns d r thread scope.transaction := by
  obtain ⟨before, after, rfl, work⟩ := h
  exact run_induction_of_answer after work
    (fun step => step.learns (orderly_run managers before) work) fun _ h step => h.step step

/-- What a failed commit is reported with was settled when unit and transaction were opened. -/
theorem commitFailure_run {t : Transaction} (rest : List Action)
    (unit : ((initial managers).run before).units[u]? = some x)
    (transaction : ((initial managers).run before).transactions[n]? = some t) (cause : Aborted) :
    ((initial managers).run (before ++ rest)).commitFailure u n cause =
      .commitFailed x.id t.localId cause := by
  have start : ((initial managers).run before).commitFailure u n cause =
      .commitFailed x.id t.localId cause := by
    simp only [commitFailure, unit, transaction]
  refine (run_induction (P := fun w => (∃ x, w.units[u]? = some x) ∧
    (∃ t, w.transactions[n]? = some t) ∧ w.commitFailure u n cause =
      .commitFailed x.id t.localId cause) managers rest
        ⟨⟨x, unit⟩, ⟨t, transaction⟩, start⟩ ?_).2.2
  rintro w w' l - ⟨⟨x, unit⟩, ⟨t, transaction⟩, same⟩ step
  obtain ⟨x', unit', -⟩ := step.forth unit
  obtain ⟨actions, transaction'⟩ := step.transaction_forth transaction
  exact ⟨⟨x', unit'⟩, ⟨_, transaction'⟩, (step.commitFailure_eq unit transaction cause).trans same⟩

/-- An operation is one on its unit for good. -/
theorem exists_operation_run (rest : List Action)
    (running : ((initial managers).run before).operations[c]? = some ⟨u, thread, s⟩) :
    ∃ s', ((initial managers).run (before ++ rest)).operations[c]? = some ⟨u, thread, s'⟩ := by
  refine run_induction (P := fun w => ∃ s, w.operations[c]? = some ⟨u, thread, s⟩) managers rest
    ⟨s, running⟩ ?_
  rintro w w' l - ⟨s, running⟩ step
  obtain ⟨s', after, -⟩ := step.advances running
  exact ⟨s', after⟩

/-- A commit whose capability has failed returns the error. -/
theorem returns_of_doomed
    (doomed : ∀ more, ((initial managers).run (past ++ more)).Doomed c u thread n e) :
    ((initial managers).run past).Returns c u thread fun told => told = .error e := by
  have now := doomed []
  rw [List.append_nil] at now
  obtain ⟨t, transaction, aborted⟩ := now.transaction
  have homeward : ((initial managers).run past).Homeward c u thread n :=
    homeward_run transaction (by simp [aborted]) (now.commit.imp fun _ => And.left)
  apply homeward.returns
  intro more told returned
  rw [← run_append] at returned
  obtain ⟨s, concludes, settled⟩ := (doomed more).commit
  cases concludes.running.symm.trans returned
  exact Option.some.inj settled

/-- A commit of the root whose capability has succeeded returns that the transaction has failed,
once a unit of the tree has failed. -/
theorem returns_of_learns {id localId : String}
    (doomed : ∀ more, ((initial managers).run (past ++ more)).Doomed c u thread n e)
    (stem : ((initial managers).run past).Stem r n)
    (learns : ∀ more, ((initial managers).run (past ++ more)).Learns d r thread' n)
    (tells : ∀ more cause, ((initial managers).run (past ++ more)).commitFailure r n cause =
      .commitFailed id localId cause) :
    ((initial managers).run past).Returns d r thread' fun told =>
      ∃ cause, told = .error (.failure (.commitFailed id localId cause)) := by
  have now := doomed []
  have concludes := (learns []).commit.imp fun _ => And.left
  rw [List.append_nil] at now concludes
  obtain ⟨t, transaction, aborted⟩ := now.transaction
  have homeward : ((initial managers).run past).Homeward d r thread' n :=
    homeward_run transaction (by simp [aborted]) concludes
  apply homeward.returns
  intro more told returned
  rw [← run_append] at returned
  obtain ⟨s, concludes, state⟩ := (learns more).commit
  cases concludes.running.symm.trans returned
  rcases state with ⟨scope, inner, eq⟩ | ⟨told', settled, data | ⟨cause, failed⟩⟩
  · cases eq
  · rw [data] at settled
    exact absurd settled ((doomed more).response?_ne (stem.run more) returned)
  · obtain rfl : told = told' := Option.some.inj settled
    exact ⟨cause, by rw [failed, tells]⟩

/-- One unit that fails dooms its tree.

The run goes on with `rest` after the capability of a unit has failed while the transaction that the
unit works in is not committed. Then the unit and the transaction are aborted, and the commit
returns the error. If the transaction was still active, the commit has aborted it itself. Whatever
takes that commit on leaves the status of every other unit alone. No commit of the root has returned
data, and one whose capability succeeds, be it earlier or later, returns that the transaction has
failed. -/
theorem failure_dooms_tree (managers : List Manager) (before rest : List Action)
    (c u thread : Nat) (scope : Scope) (t : Transaction) (e : ResponseError)
    (work : ((initial managers).run before).operations[c]? = some ⟨u, thread, .work scope⟩)
    (transaction : ((initial managers).run before).transactions[scope.transaction]? = some t)
    (open' : t.status ≠ .committed) :
    let w := (initial managers).run before
    let fails := Action.answer (.operation c) (.response (.error e))
    let past := before ++ fails :: rest
    let w' := (initial managers).run past
    (w'.Returns c u thread fun told => told = .error e) ∧
      statusOf? u w' = some .aborted ∧
      (∃ reason, w'.verdictOf? scope.transaction = some (.aborted, reason)) ∧
      (t.status = .active → (w.perform fails).verdictOf? scope.transaction =
        some (.aborted, some .scopeNotCompleted)) ∧
      (∀ (earlier : List Action) (a : Action) (v : Nat), before <+: earlier →
        earlier ++ [a] <+: past → a.operation? = some c → v ≠ u →
          statusOf? v ((initial managers).run (earlier ++ [a])) =
            statusOf? v ((initial managers).run earlier)) ∧
      ∃ root, w.units[w.rootOf u]? = some root ∧ ∀ d thread' : Nat,
        w'.operations[d]? ≠ some ⟨w.rootOf u, thread', .done (.commit (.ok (.data ())))⟩ ∧
          ∀ scope', Answered managers past d (w.rootOf u) thread' scope' (.data ()) →
            w'.Returns d (w.rootOf u) thread' fun told =>
              ∃ cause, told = .error (.failure (.commitFailed root.id t.localId cause)) := by
  intro w fails past w'
  have stemmed := stemmed_run managers before
  have doomed (more : List Action) :
      ((initial managers).run (past ++ more)).Doomed c u thread scope.transaction e := by
    rw [List.append_assoc, List.cons_append]
    exact run_induction_of_answer (rest ++ more) work
      (fun step => step.doomed stemmed.order stemmed.lived work transaction open')
      fun stemmed h step => h.step stemmed.order step
  have stem : w'.Stem (w.rootOf u) scope.transaction :=
    (stemmed.working work rfl).run (fails :: rest)
  have now : w'.Doomed c u thread scope.transaction e := by simpa using doomed []
  obtain ⟨x, unit⟩ := stemmed.order.seated work rfl
  obtain ⟨root, above, top⟩ := stemmed.order.rooted unit
  rw [← rootOf_eq unit] at above
  have tree : w'.rootOf u = w'.rootOf (w.rootOf u) := by
    rw [rootOf_run _ unit, rootOf_run _ above, rootOf_of_isRoot above top]
  refine ⟨returns_of_doomed doomed, ?_, ?_, ?_, ?_, root, above, fun d thread' => ⟨?_, ?_⟩⟩
  · obtain ⟨x', unit', aborted⟩ := now.unit
    rw [statusOf?, unit', Option.map_some, aborted]
  · obtain ⟨t', transaction', aborted⟩ := now.transaction
    exact ⟨t'.abortReason, by
      rw [verdictOf?, transaction', Option.map_some, Transaction.verdict, aborted]⟩
  · intro active
    have acts : w.perform fails = w.workFailed c u scope e := by
      simp only [w, fails, perform, answer, work, answerOperation]
    rw [acts]
    exact verdictOf?_workFailed transaction active c u e
  · rintro _ a v ⟨more, rfl⟩ - acts other
    obtain ⟨s, running⟩ := exists_operation_run more work
    rw [run_append _ (before ++ more)]
    exact (within_perform running acts).statuses other
  · intro returned
    exact now.response?_ne stem returned rfl
  · intro scope' answered
    have failed : Answered managers past c u thread scope (.error e) := ⟨before, rest, rfl, work⟩
    have same := failed.transaction_eq answered tree
    refine returns_of_learns doomed stem (fun more => ?_) fun more cause => ?_
    · rw [same]
      exact (answered.append more).learns
    · rw [List.append_assoc]
      exact commitFailure_run (fails :: rest ++ more) above transaction cause

/-- A leaf is at work on a thread of its own when the root, whose capability has succeeded, begins
to wait for it. -/
def awaited : List Action :=
  [.openUnit ⟨"root", "shared", none, 0, 0, .default⟩,
    .openUnit ⟨"leaf", "other", some 0, 0, 0, .default⟩, .commit 1 1, .commit 0 0,
    .answer (.operation 3) (.response (.data ()))]

/-- The root that waits for a leaf learns that the leaf has failed. -/
theorem failure_dooms_tree_awaited :
    let w := (initial [.permissive]).run awaited
    let e := ResponseError.told "Lost" "the leaf was lost"
    let past := awaited ++ [.answer (.operation 2) (.response (.error e))]
    let w' := (initial [.permissive]).run past
    (∃ (scope : Scope) (t : Transaction) (deadline : Option Instant),
      w.operations[2]? = some ⟨1, 1, .work scope⟩ ∧
        w.transactions[scope.transaction]? = some t ∧ t.status = .active ∧
        w.need (.operation 3) = .wakening deadline) ∧
    (w'.Returns 2 1 1 fun told => told = .error e) ∧ statusOf? 1 w' = some .aborted ∧
    w'.verdictOf? 0 = some (.aborted, some .scopeNotCompleted) ∧
    w'.Returns 3 0 0 fun told =>
      ∃ cause, told = .error (.failure (.commitFailed "root" "shared" cause)) := by
  intro w e past w'
  obtain ⟨scope, work, here⟩ : ∃ scope : Scope, w.operations[2]? = some ⟨1, 1, .work scope⟩ ∧
    scope.transaction = 0 := ⟨_, rfl, rfl⟩
  obtain ⟨t, transaction, active, localId⟩ : ∃ t, w.transactions[scope.transaction]? = some t ∧
    t.status = .active ∧ t.localId = "shared" := by
      rw [here]
      exact ⟨_, rfl, rfl, rfl⟩
  obtain ⟨scope', answered⟩ :
    ∃ scope', Answered [.permissive] past 3 0 0 scope' (.data ()) :=
      ⟨_, awaited.take 4, [.answer (.operation 2) (.response (.error e))], rfl, rfl⟩
  obtain ⟨fails, aborted, -, struck, -, root, above, spared⟩ :=
    failure_dooms_tree [.permissive] awaited [] 2 1 1 scope t e work transaction (by simp [active])
  have returns := (spared 3 0).2 scope' answered
  obtain rfl : _ = root := Option.some.inj above
  rw [localId] at returns
  rw [here] at struck
  exact ⟨⟨scope, t, _, work, transaction, active, rfl⟩, fails, aborted, struck active, returns⟩

end Run

end NestedWork.World
