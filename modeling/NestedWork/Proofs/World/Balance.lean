import NestedWork.Proofs.World.Lease

/-!
# The balance of dependents

In the course of a run, a commit takes at most one dependent and gives it back, and no other
operation does anything with dependents. The dependent of a root is given back before the commit of
the transaction begins.

## Implementation notes

What an operation has done so far is kept along with the worlds up to the present one, since the
scope of a commit is gone from its stage once the result is settled.
-/

namespace NestedWork.World

variable {w w' : World} {l : Label} {c u n k thread : Nat} {x x' : UnitOfWork} {s s' : Stage}
  {f : UnitOfWork → UnitOfWork} {actions : List Transaction.Action} {scope : Scope}
  {front ws : List World} {managers : List Manager} {past : List Action}

/-! ## What is kept -/

/-- A unit stays on the thread that it was opened on. -/
theorem Turns.thread_eq (turns : w.Turns c u x thread l s f n actions s') :
    (f x).thread = x.thread := by
  cases turns with
  | finish judges | yield judges =>
      cases judges <;> simp only [UnitOfWork.finish, UnitOfWork.yield] <;> split <;> rfl
  | leave leaves => cases leaves <;> rfl
  | _ => rfl

theorem Step.thread_eq (step : w.Step l w') (unit : w.units[u]? = some x)
    (unit' : w'.units[u]? = some x') : x'.thread = x.thread := by
  cases step.became unit unit' with
  | kept | founded => rfl
  | turned turn =>
      obtain ⟨-, turns, rfl⟩ := turn
      exact turns.thread_eq

theorem Lent.step (h : w.Lent n k) (step : w.Step l w') : w'.Lent n k := by
  obtain ⟨t, transaction, given⟩ := h
  obtain ⟨actions, after⟩ := step.transaction_forth transaction
  refine ⟨_, after, ?_⟩
  have lt := (List.getElem?_eq_some_iff.mp given).1
  rw [Transaction.runAt, Transaction.modes_run, List.getElem?_append_left lt, given]

theorem Returned.step (h : w.Returned n k) (step : w.Step l w') : w'.Returned n k := by
  obtain ⟨t, transaction, released⟩ := h
  obtain ⟨actions, after⟩ := step.transaction_forth transaction
  exact ⟨_, after, Transaction.isReleased_run released _⟩

/-- A scope is that of a commit on a thread, in the transaction of the tree. -/
structure Fits (w : World) (u thread : Nat) (scope : Scope) : Prop where
  suits : ∃ x, w.units[u]? = some x ∧ scope.Suits thread x
  stem : w.Stem (w.rootOf u) scope.transaction
  lent : ∀ {k : Nat}, scope.dependent = some k → w.Lent scope.transaction k

/-- What a commit has done with its dependent so far. -/
inductive Dealt (w : World) (c : Nat) (scope : Scope) (k : Nat) : List Dealing → Prop
  | lent (leased : w.leaseOf c = some scope) : Dealt w c scope k [.issues k .blocking]
  | returned {completed : Bool} (free : w.leaseOf c = none)
      (returned : w.Returned scope.transaction k) :
      Dealt w c scope k [.issues k .blocking, .releases k completed]

namespace Dealt

variable {done : List Dealing}

theorem eq_of_leased (h : w.Dealt c scope k done) (leased : (w.leaseOf c).isSome = true) :
    done = [.issues k .blocking] := by
  cases h with
  | lent => rfl
  | returned free => simp [free] at leased

theorem eq_of_free (h : w.Dealt c scope k done) (free : w.leaseOf c = none) :
    (∃ completed, done = [.issues k .blocking, .releases k completed]) ∧
      w.Returned scope.transaction k := by
  cases h with
  | lent leased => cases free.symm.trans leased
  | returned _ returned => exact ⟨⟨_, rfl⟩, returned⟩

theorem rests (h : w.Dealt c scope k done) (same : w'.leaseOf c = w.leaseOf c)
    (step : w.Step l w') : w'.Dealt c scope k done := by
  cases h with
  | lent leased => exact .lent (same.trans leased)
  | returned free returned => exact .returned (same.trans free) (returned.step step)

end Dealt

/-- What an operation has done with dependents in the worlds up to the present one. -/
inductive Account (front : List World) (w : World) (c : Nat) : Prop
  | outside (free : w.leaseOf c = none) (never : ∀ scope, ¬ Reaches (front ++ [w]) c scope)
      (none : ∀ n, dealings c n (front ++ [w]) = [])
  | entered {u thread : Nat} {s : Stage} {scope : Scope}
      (running : w.operations[c]? = some ⟨u, thread, s⟩) (begun : w.Started u)
      (leased : ∀ scope', w.leaseOf c = some scope' → scope' = scope)
      (sole : ∀ scope', Reaches (front ++ [w]) c scope' ↔ scope' = scope)
      (fits : w.Fits u thread scope)
      (apart : ∀ n, n ≠ scope.transaction ∨ scope.dependent = none →
        dealings c n (front ++ [w]) = [])
      (dealt : ∀ k, scope.dependent = some k →
        w.Dealt c scope k (dealings c scope.transaction (front ++ [w])))

/-- A scope after a step suits the unit as it did before. -/
theorem Step.suits (step : w.Step l w') (unit : w.units[u]? = some x)
    (suits : scope.Suits thread x) : ∃ x', w'.units[u]? = some x' ∧ scope.Suits thread x' := by
  obtain ⟨x', unit', -, lineage, -⟩ := step.forth unit
  have same := step.thread_eq unit unit'
  have root : x'.isRoot = x.isRoot := by simp [UnitOfWork.isRoot, lineage]
  refine ⟨x', unit', suits.thread_eq, ?_, ?_⟩
  · rw [same, root]
    exact suits.home
  · rw [same]
    exact suits.away

theorem Fits.step (h : w.Fits u thread scope) (stemmed : w.Stemmed) (step : w.Step l w') :
    w'.Fits u thread scope := by
  obtain ⟨x, unit, suits⟩ := h.suits
  exact ⟨step.suits unit suits, step.rootOf_eq unit ▸ stemmed.stem h.stem step,
    fun held => (h.lent held).step step⟩

namespace Account

variable (h : Account front w c) (stemmed : w.Stemmed) (step : w.Step l w')
include h stemmed step

theorem rests (rests : w.Rests w' c) : Account (front ++ [w]) w' c := by
  obtain ⟨same, idle, none⟩ := rests
  have kept (n : Nat) : dealings c n (front ++ [w] ++ [w']) = dealings c n (front ++ [w]) := by
    rw [dealings_concat, none, List.append_nil]
  have reached (scope : Scope) :
      Reaches (front ++ [w] ++ [w']) c scope ↔ Reaches (front ++ [w]) c scope := by
    rw [reaches_concat]
    refine or_iff_left_of_imp fun ⟨u, works⟩ => ?_
    exact ⟨w, List.mem_append_right _ (List.mem_singleton_self w), u, idle u scope works⟩
  cases h with
  | outside free never none =>
      exact .outside (same.trans free) (fun scope => (reached scope).not.mpr (never scope))
        fun n => (kept n).trans (none n)
  | entered running begun leased sole fits apart dealt =>
      obtain ⟨s', running', -⟩ := step.advances running
      exact .entered running' (begun.step stemmed.order step) (same ▸ leased)
        (fun scope => (reached scope).trans (sole scope)) (fits.step stemmed step)
        (fun n other => (kept n).trans (apart n other))
        fun k held => kept _ ▸ (dealt k held).rests same step

/-- Only a unit in doubt comes to its capability, so a commit does so once. -/
theorem takes (takes : w.Takes w' c u thread x scope) : Account (front ++ [w]) w' c := by
  obtain ⟨waits, unit, works, suits, apart, dealt⟩ := takes
  cases h with
  | entered running begun =>
      cases waits.symm.trans running
      obtain ⟨x₀, unit₀, begun⟩ := begun
      obtain rfl := Option.some.inj (unit.symm.trans unit₀)
      exact absurd (Option.some.inj (stemmed.order.shown waits unit rfl).2).symm begun
  | outside free never none =>
      have after := stemmed.step step
      obtain ⟨x', unit', suits⟩ := step.suits unit suits
      have here : w'.leaseOf c = some scope := leaseOf_of works
      have begun : w'.Started u := by
        refine ⟨x', unit', fun inDoubt => ?_⟩
        have shown := (after.order.shown works unit' rfl).2
        rw [inDoubt] at shown
        cases shown
      have fits : w'.Fits u thread scope :=
        ⟨⟨x', unit', suits⟩, after.working works rfl, fun held => (dealt _ held).2⟩
      refine .entered works begun (fun scope' leased => Option.some.inj (leased.symm.trans here))
        (fun scope' => ?_) fits (fun n other => ?_) fun k held => ?_
      · rw [reaches_concat, or_iff_right (never scope')]
        constructor
        · rintro ⟨v, works'⟩
          obtain ⟨thread', there⟩ := need_eq_work_iff.mp works'
          cases works.symm.trans there
          rfl
        · rintro rfl
          exact ⟨u, need_eq_work_iff.mpr ⟨thread, works⟩⟩
      · rw [dealings_concat, none, apart n other]
        rfl
      · rw [dealings_concat, none, (dealt k held).1]
        exact .lent here

theorem gives (gives : w.Gives w' c scope) : Account (front ++ [w]) w' c := by
  obtain ⟨leased, free, apart, dealt⟩ := gives
  cases h with
  | outside free' => cases free'.symm.trans leased
  | entered running begun only sole fits apart' dealt' =>
      obtain rfl := only scope leased
      obtain ⟨s', running', -⟩ := step.advances running
      refine .entered running' (begun.step stemmed.order step) (fun scope' leased' => ?_)
        (fun scope' => ?_) (fits.step stemmed step) (fun n other => ?_) fun k held => ?_
      · cases free.symm.trans leased'
      · rw [reaches_concat, ← sole scope']
        refine or_iff_left_of_imp fun ⟨v, works⟩ => ?_
        obtain ⟨thread', there⟩ := need_eq_work_iff.mp works
        cases free.symm.trans (leaseOf_of there)
      · rw [dealings_concat, apart' n other, apart n other]
        rfl
      · obtain ⟨⟨completed, back⟩, returned⟩ := dealt k held (fits.lent held)
        rw [dealings_concat, (dealt' k held).eq_of_leased (by simp [leased]), back]
        exact .returned free returned

end Account

/-- Every step keeps the account. -/
theorem Account.step (h : Account front w c) (stemmed : w.Stemmed) (step : w.Step l w') :
    Account (front ++ [w]) w' c := by
  cases step.leases stemmed.order c with
  | rests rests => exact h.rests stemmed step rests
  | takes takes => exact h.takes stemmed step takes
  | gives gives => exact h.gives stemmed step gives

/-! ## In the course of a run -/

theorem Course.account (course : Course managers past ws) (c : Nat) {rest : List World}
    (split : ws = front ++ w :: rest) : w.Stemmed ∧ Account front w c := by
  refine course.induction_split (P := fun front w => w.Stemmed ∧ Account front w c)
    ⟨stemmed_initial managers, .outside rfl ?_ fun n => rfl⟩
    (fun ⟨stemmed, account⟩ step => ⟨stemmed.step step, account.step stemmed step⟩) split
  rintro scope ⟨w, mem, u, works⟩
  rw [List.mem_singleton.mp mem] at works
  cases works

/-- A commit comes to complete its transaction from the work of its capability. Its dependent is
released by then, and the commit of the transaction begins after that. -/
theorem Step.completes (step : w.Step l w') (order : w.Orderly) {inner : Inner}
    (after : w'.operations[c]? = some ⟨u, thread, .completing scope inner⟩)
    (early : ∀ inner, w.operations[c]? ≠ some ⟨u, thread, .completing scope inner⟩) :
    w.leaseOf c = some scope ∧ ∀ k, scope.dependent = some k →
      ∃ t, w.transactions[scope.transaction]? = some t ∧
        let t₁ := t.runAt w.now (w.callSteps scope.transaction (.release k true))
        inner = ⟨scope.transaction, t₁.calls.length⟩ ∧
          w'.transactions[scope.transaction]? =
            some (t₁.runAt w.now (.begin .commit :: Transaction.strides inner.call)) := by
  rcases step.operation_back after with ⟨s, before, advances⟩ | ⟨-, opening⟩
  · cases advances with
    | stay => exact absurd before (early inner)
    | turn unit turns eq =>
        subst eq
        generalize eq : Stage.completing scope inner = s' at turns
        cases turns with
        | complete =>
            obtain ⟨rfl, rfl⟩ := Stage.completing.inj eq
            refine ⟨leaseOf_of before, fun k held => ?_⟩
            obtain ⟨t, transaction⟩ : ∃ t, w.transactions[scope.transaction]? = some t :=
              ⟨_, List.getElem?_eq_getElem (order.entered before unit rfl).2⟩
            have completion : w.completion scope =
                w.callSteps scope.transaction (.release k true) := by rw [completion, held]
            have calls : (w.completeDependent scope).callsOn scope.transaction = (t.runAt w.now
                (w.callSteps scope.transaction (.release k true))).calls.length := by
              rw [completeDependent_eq, completion]
              simp [callsOn, World.transact, modifyTransaction, transaction]
            refine ⟨t, transaction, congrArg (Inner.mk _) calls, ?_⟩
            rw [transactions_evolve transaction, Transaction.runAt_append, completion]
            rfl
        | leave =>
            revert eq
            split <;> rintro ⟨⟩
        | _ => cases eq
  · cases opening

/-- Before the commit of a transaction is begun by a commit in a scope with a dependent, that is
released. So the commit does not wait for it. -/
theorem Course.released_before_commit (course : Course managers past ws)
    (adjacent : [w, w'] <:+: ws) (held : scope.dependent = some k) {inner : Inner}
    (after : w'.operations[c]? = some ⟨u, thread, .completing scope inner⟩)
    (early : ∀ inner, w.operations[c]? ≠ some ⟨u, thread, .completing scope inner⟩) :
    ∃ t, w.transactions[scope.transaction]? = some t ∧
      let t₁ := t.runAt w.now (w.callSteps scope.transaction (.release k true))
      t₁.dependents[k]? = some ⟨.blocking, true⟩ ∧ t₁.WaitsForOthers k ∧
        inner = ⟨scope.transaction, t₁.calls.length⟩ ∧
        w'.transactions[scope.transaction]? =
          some (t₁.runAt w.now (.begin .commit :: Transaction.strides inner.call)) := by
  obtain ⟨l, step⟩ := course.follows adjacent
  obtain ⟨before, rest, eq⟩ := adjacent
  have split : ws = before ++ w :: w' :: rest := by simpa using eq.symm
  obtain ⟨stemmed, account⟩ := course.account c split
  obtain ⟨leased, completes⟩ := step.completes stemmed.order after early
  obtain ⟨t, transaction, first, later⟩ := completes k held
  refine ⟨t, transaction, ?_⟩
  intro t₁
  cases account with
  | outside free => cases free.symm.trans leased
  | entered _ _ only _ fits =>
      obtain rfl := only scope leased
      obtain ⟨t₀, transaction₀, given⟩ := fits.lent held
      obtain rfl := Option.some.inj (transaction.symm.trans transaction₀)
      obtain ⟨options, reachable⟩ := stemmed.lived transaction
      have lt := (List.getElem?_eq_some_iff.mp given).1
      have given' : t₁.modes[k]? = some .blocking := by
        rw [show t₁.modes = _ from Transaction.modes_run .., List.getElem?_append_left lt, given]
      have released : t₁.isReleased k = true :=
        isReleased_runAt (by simpa using lt) w.now true
          (Transaction.strides (w.callsOn scope.transaction))
      exact ⟨Transaction.dependents_of_isReleased given' released,
        (reachable.runAt _).counted.waitsForOthers released, first, later⟩

/-! ## All together -/

/-- The dependents of commits are balanced.

In every course of a run, an operation that does not reach the capability of its unit does nothing
with dependents. One that does works in the transaction of its tree. On the thread of the unit, it
does nothing with dependents either, and works as the owner of the transaction if the unit is a root
and joined to it otherwise. On another thread it works in a dependent scope, and all that it does
with dependents is this: it takes one of the transaction of the tree, one that holds up commits, and
gives it back once the capability has answered. Until then, the dependent is released only if a call
for that was made on the transaction. From then on it is released, and no commit waits for it.

A root comes to commit its transaction only after it has given its own dependent back: the commit is
begun on the transaction as the release has left it. -/
theorem leases_balanced (managers : List Manager) (past : List Action) (ws : List World)
    (course : Course managers past ws) (c u thread : Nat) (s : Stage) (x : UnitOfWork)
    (running : ((initial managers).run past).operations[c]? = some ⟨u, thread, s⟩)
    (unit : ((initial managers).run past).units[u]? = some x) :
    let w := (initial managers).run past
    ((∀ scope, ¬ Reaches ws c scope) → ∀ n, dealings c n ws = []) ∧
    (∀ scope, Reaches ws c scope →
      w.Stem (w.rootOf u) scope.transaction ∧ scope.thread = thread ∧
      (thread = x.thread → scope.kind = (if x.isRoot then .owned else .joined) ∧
        ∀ n, dealings c n ws = []) ∧
      (thread ≠ x.thread → scope.kind = .dependent ∧
        (∀ n, n ≠ scope.transaction → dealings c n ws = []) ∧
        ∃ k t, scope.dependent = some k ∧ w.transactions[scope.transaction]? = some t ∧
          (s.lease?.isSome = true →
            dealings c scope.transaction ws = [.issues k .blocking] ∧
              t.modes[k]? = some .blocking ∧
              (t.isReleased k = true → ∃ completed,
                .release k completed ∈ t.calls.map Call.purpose)) ∧
          (s.lease? = none →
            (∃ completed, dealings c scope.transaction ws =
              [.issues k .blocking, .releases k completed]) ∧
              t.dependents[k]? = some ⟨.blocking, true⟩ ∧ t.WaitsForOthers k))) ∧
    ∀ v v' scope inner k, [v, v'] <:+: ws → scope.dependent = some k →
      v'.operations[c]? = some ⟨u, thread, .completing scope inner⟩ →
      (∀ inner, v.operations[c]? ≠ some ⟨u, thread, .completing scope inner⟩) →
      ∃ t, v.transactions[scope.transaction]? = some t ∧
        let t₁ := t.runAt v.now (v.callSteps scope.transaction (.release k true))
        t₁.dependents[k]? = some ⟨.blocking, true⟩ ∧ t₁.WaitsForOthers k ∧
          inner = ⟨scope.transaction, t₁.calls.length⟩ ∧
          v'.transactions[scope.transaction]? =
            some (t₁.runAt v.now (.begin .commit :: Transaction.strides inner.call)) := by
  intro w
  obtain ⟨front, split⟩ := course.exists_eq_concat
  obtain ⟨stemmed, account⟩ := course.account c split
  have here : w.leaseOf c = s.lease? := leaseOf_of running
  refine ⟨fun none n => ?_, fun scope reaches => ?_, fun _ _ _ _ _ adjacent held after early =>
    course.released_before_commit adjacent held after early⟩
  · rw [split] at none ⊢
    cases account with
    | outside _ _ nothing => exact nothing n
    | entered _ _ _ sole => exact absurd ((sole _).mpr rfl) (none _)
  · rw [split] at reaches ⊢
    cases account with
    | outside _ never => exact absurd reaches (never scope)
    | entered running' _ _ sole fits apart dealt =>
        cases running.symm.trans running'
        obtain rfl := (sole scope).mp reaches
        obtain ⟨x₀, unit₀, suits⟩ := fits.suits
        obtain rfl := Option.some.inj (unit.symm.trans unit₀)
        refine ⟨fits.stem, suits.thread_eq, fun home => ?_, fun away => ?_⟩
        · obtain ⟨kind, alone⟩ := suits.home home
          exact ⟨kind, fun n => apart n (.inr alone)⟩
        · obtain ⟨kind, k, held⟩ := suits.away away
          obtain ⟨t, transaction, given⟩ := fits.lent held
          obtain ⟨options, reachable⟩ := stemmed.lived transaction
          refine ⟨kind, fun n ne => apart n (.inl ne), k, t, held, transaction, ?_, ?_⟩
          · intro lent
            exact ⟨(dealt k held).eq_of_leased (here ▸ lent), given, reachable.requested k⟩
          · intro back
            obtain ⟨done, t₀, transaction₀, released⟩ := (dealt k held).eq_of_free (here.trans back)
            obtain rfl := Option.some.inj (transaction.symm.trans transaction₀)
            exact ⟨done, Transaction.dependents_of_isReleased given released,
              reachable.counted.waitsForOthers released⟩

/-- A root is committed on a thread other than its own. -/
def foreign : List Action :=
  [.openUnit ⟨"root", "shared", none, 0, 0, .default⟩, .commit 0 1,
    .answer (.operation 1) (.response (.data ()))]

/-- A root that is committed on another thread does not wait for its own dependent. -/
theorem leases_balanced_foreign : ∃ ws, Course [.permissive] foreign ws ∧
    ∃ scope, Reaches ws 1 scope ∧ scope.kind = .dependent ∧ ∃ k completed,
      dealings 1 scope.transaction ws = [.issues k .blocking, .releases k completed] ∧
      ((initial [.permissive]).run foreign).operations[1]? =
        some ⟨0, 1, .done (.commit (.ok (.data ())))⟩ := by
  obtain ⟨ws, course⟩ := exists_course [.permissive] foreign
  obtain ⟨scope, works⟩ : ∃ scope,
      ((initial [.permissive]).run (foreign.take 2)).need (.operation 1) = .work 0 scope := ⟨_, rfl⟩
  have reaches : Reaches ws 1 scope :=
    ⟨_, course.run_mem (List.take_prefix 2 foreign), 0, works⟩
  obtain ⟨x, unit, other⟩ : ∃ x, ((initial [.permissive]).run foreign).units[0]? = some x ∧
      1 ≠ x.thread := ⟨_, rfl, by decide⟩
  have running : ((initial [.permissive]).run foreign).operations[1]? =
      some ⟨0, 1, .done (.commit (.ok (.data ())))⟩ := rfl
  obtain ⟨-, all, -⟩ := leases_balanced [.permissive] foreign ws course 1 0 1 _ x running unit
  obtain ⟨-, -, -, away⟩ := all scope reaches
  obtain ⟨kind, -, k, t, -, -, -, back⟩ := away other
  obtain ⟨⟨completed, done⟩, -⟩ := back rfl
  exact ⟨ws, course, scope, reaches, kind, k, completed, done, running⟩

end NestedWork.World
