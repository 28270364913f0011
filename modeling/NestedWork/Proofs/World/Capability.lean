import NestedWork.Proofs.World.Lifecycle

/-!
# The one call of a capability

The capability of a unit is called at most once in the unit's life, and the unit is active exactly
while it works. What a root has committed is revoked only by the commit that its capability was
called for, when the commit of the transaction has failed.

## Implementation notes

A commit gets to the capability only while its unit is in doubt, and leaves the unit active. No
status leads back to doubt, so nobody gets there a second time.
-/

namespace NestedWork.World

variable {w w' : World} {l : Label} {c u thread n : Nat} {x x' : UnitOfWork} {s s' : Stage}
  {f : UnitOfWork → UnitOfWork} {actions : List Transaction.Action} {scope : Scope} {inner : Inner}
  {rest ws : List World} {managers : List Manager} {past : List Action}

/-! ## Calls of the capability -/

/-- The capability of a unit is at work for an operation. -/
def isAtWork (w : World) (u c : Nat) : Bool :=
  match w.need (.operation c) with
  | .work v _ => v == u
  | _ => false

/-- The operations that a capability of a unit is called for between two worlds. -/
def callsBetween (u : Nat) (w w' : World) : List Nat :=
  (List.range w'.operations.length).filter fun c => w'.isAtWork u c && !w.isAtWork u c

/-- The operations that the capability of a unit is called for, in the order of the calls. -/
def calls (u : Nat) : List World → List Nat
  | w :: w' :: rest => callsBetween u w w' ++ calls u (w' :: rest)
  | _ => []

theorem needOfCall_ne_work (w : World) (i : Inner) (v : Nat) (scope : Scope) :
    w.needOfCall i ≠ .work v scope := by
  unfold needOfCall
  split <;> simp

theorem isAtWork_iff :
    w.isAtWork u c = true ↔ ∃ thread scope, w.operations[c]? = some ⟨u, thread, .work scope⟩ := by
  cases running : w.operations[c]? with
  | none => simp [isAtWork, need, running]
  | some o =>
      obtain ⟨v, thread, s⟩ := o
      cases s with
      | work scope => simp [isAtWork, need, needOfOperation, running]
      | leaving _ _ i | discarding _ _ i | completing _ i | yielding _ i | surrender i =>
          have other := w.needOfCall_ne_work i
          cases need : w.needOfCall i <;> simp_all [isAtWork, World.need, needOfOperation]
      | _ => simp [isAtWork, need, needOfOperation, running]

theorem mem_callsBetween :
    c ∈ callsBetween u w w' ↔ w'.isAtWork u c = true ∧ w.isAtWork u c = false := by
  simp only [callsBetween, List.mem_filter, List.mem_range, Bool.and_eq_true, Bool.not_eq_true',
    and_iff_right_iff_imp]
  rintro ⟨work, -⟩
  obtain ⟨thread, scope, running⟩ := isAtWork_iff.mp work
  exact (List.getElem?_eq_some_iff.mp running).1

/-- Only one call of a capability begins at a step, since only one commit runs on a unit. -/
theorem length_callsBetween_le (order : w'.Orderly) (u : Nat) (w : World) :
    (callsBetween u w w').length ≤ 1 := by
  have nodup : (callsBetween u w w').Nodup := List.nodup_range.filter _
  have same {c d : Nat} (first : c ∈ callsBetween u w w') (second : d ∈ callsBetween u w w') :
      c = d := by
    obtain ⟨thread, scope, running⟩ := isAtWork_iff.mp (mem_callsBetween.mp first).1
    obtain ⟨thread', scope', running'⟩ := isAtWork_iff.mp (mem_callsBetween.mp second).1
    exact order.alone running running' rfl rfl
  rcases eq : callsBetween u w w' with _ | ⟨c, _ | ⟨d, rest⟩⟩
  · exact Nat.zero_le 1
  · exact Nat.le_refl 1
  · rw [eq] at nodup same
    obtain rfl := same (List.mem_cons_self ..) (List.mem_cons_of_mem c (List.mem_cons_self ..))
    exact absurd (List.mem_cons_self ..) (List.nodup_cons.mp nodup).1

/-- An operation at work was so before, or has just been let through. -/
theorem Step.work_back (step : w.Step l w')
    (running : w'.operations[c]? = some ⟨u, thread, .work scope⟩) :
    w.operations[c]? = some ⟨u, thread, .work scope⟩ ∨
      w.operations[c]? = some ⟨u, thread, .admission⟩ := by
  rcases step.operation_back running with ⟨s, before, advances⟩ | ⟨-, opening⟩
  · cases advances with
    | stay => exact .inl before
    | turn unit turns =>
        generalize eq : Stage.work scope = s' at turns
        cases turns with
        | enter => exact .inr before
        | leave =>
            revert eq
            split <;> rintro ⟨⟩
        | _ => cases eq
  · cases opening

/-- The capability of a unit has been called. -/
def Started (w : World) (u : Nat) : Prop := ∃ x, w.units[u]? = some x ∧ x.status ≠ .inDoubt

theorem Started.step (h : w.Started u) (order : w.Orderly) (step : w.Step l w') : w'.Started u := by
  obtain ⟨x, unit, begun⟩ := h
  obtain ⟨x', unit', -⟩ := step.forth unit
  refine ⟨x', unit', ?_⟩
  rcases step.leads order unit unit' with same | leads
  · rwa [same]
  · exact leads.ne_inDoubt

/-- The capability is called for a unit in doubt, and then the unit is no longer. -/
theorem Step.started_of_call (step : w.Step l w') (order : w.Orderly)
    (call : c ∈ callsBetween u w w') : ¬ w.Started u ∧ w'.Started u := by
  obtain ⟨work, idle⟩ := mem_callsBetween.mp call
  obtain ⟨thread, scope, running⟩ := isAtWork_iff.mp work
  have waits : w.operations[c]? = some ⟨u, thread, .admission⟩ := by
    refine (step.work_back running).resolve_left fun before => ?_
    rw [isAtWork_iff.mpr ⟨thread, scope, before⟩] at idle
    cases idle
  constructor
  · rintro ⟨x, unit, begun⟩
    exact begun (Option.some.inj (order.shown waits unit rfl).2).symm
  · obtain ⟨x, unit⟩ := (order.step step).seated running rfl
    refine ⟨x, unit, fun inDoubt => ?_⟩
    have shown := ((order.step step).shown running unit rfl).2
    rw [inDoubt] at shown
    cases shown

/-- The capability of a unit that has been called is not called again. -/
theorem calls_of_started (chain : (w :: rest).IsChain Follows) (order : w.Orderly)
    (started : w.Started u) : calls u (w :: rest) = [] := by
  induction rest generalizing w with
  | nil => rfl
  | cons w' rest ih =>
      obtain ⟨⟨l, step⟩, chain⟩ := List.isChain_cons_cons.mp chain
      have none : callsBetween u w w' = [] :=
        List.eq_nil_iff_forall_not_mem.mpr fun c call =>
          (step.started_of_call order call).1 started
      rw [calls, none, ih chain (order.step step) (started.step order step)]
      rfl

theorem length_calls_le (chain : (w :: rest).IsChain Follows) (order : w.Orderly) (u : Nat) :
    (calls u (w :: rest)).length ≤ 1 := by
  induction rest generalizing w with
  | nil => exact Nat.zero_le 1
  | cons w' rest ih =>
      obtain ⟨⟨l, step⟩, chain⟩ := List.isChain_cons_cons.mp chain
      rw [calls]
      cases eq : callsBetween u w w' with
      | nil => exact ih chain (order.step step)
      | cons c more =>
          have call : c ∈ callsBetween u w w' := eq ▸ List.mem_cons_self ..
          have started := (step.started_of_call order call).2
          rw [calls_of_started chain (order.step step) started, List.append_nil, ← eq]
          exact length_callsBetween_le (order.step step) u w

/-- A commit that works in a scope did so in the beginning, or its capability was called since. -/
theorem mem_calls (chain : (w :: rest).IsChain Follows) (mem : w' ∈ w :: rest)
    (running : w'.operations[c]? = some ⟨u, thread, s'⟩) (within : s'.scope? = some scope) :
    (∃ s, w.operations[c]? = some ⟨u, thread, s⟩ ∧ s.scope? = some scope) ∨
      c ∈ calls u (w :: rest) := by
  induction rest generalizing w with
  | nil =>
      obtain rfl := List.mem_singleton.mp mem
      exact .inl ⟨s', running, within⟩
  | cons w₁ rest ih =>
      obtain ⟨⟨l, step⟩, chain⟩ := List.isChain_cons_cons.mp chain
      rcases List.mem_cons.mp mem with rfl | mem
      · exact .inl ⟨s', running, within⟩
      · rw [calls]
        rcases ih chain mem with ⟨s, between, within⟩ | call
        · rcases step.scope_cases between within with before | ⟨waits, rfl, -⟩
          · exact .inl before
          · have idle : w.isAtWork u c = false := by
              by_contra work
              rw [Bool.not_eq_false, isAtWork_iff] at work
              obtain ⟨thread', scope', before⟩ := work
              cases waits.symm.trans before
            have work : w₁.isAtWork u c = true := isAtWork_iff.mpr ⟨thread, scope, between⟩
            exact .inr (List.mem_append_left _ (mem_callsBetween.mpr ⟨work, idle⟩))
        · exact .inr (List.mem_append_right _ call)

/-! ## Units at work -/

/-- An active unit has its capability at work. -/
def Busy (w : World) : Prop :=
  ∀ {u : Nat} {x : UnitOfWork}, w.units[u]? = some x → x.status = .active →
    ∃ (c thread : Nat) (scope : Scope), w.operations[c]? = some ⟨u, thread, .work scope⟩

theorem Turns.of_work (turns : w.Turns c u x thread l (.work scope) f n actions s') :
    (f x).status ≠ .active := by
  generalize eq : Stage.work scope = s at turns
  cases turns with
  | fail | succeed | complete => rintro ⟨⟩
  | finish judges | yield judges => cases judges <;> cases eq
  | leave leaves => cases leaves <;> cases eq
  | _ => cases eq

/-- A turn that makes a unit active sets its capability to work. -/
theorem Turns.active (turns : w.Turns c u x thread l s f n actions s')
    (active : (f x).status = .active) : x.status = .active ∨ ∃ scope, s' = .work scope := by
  cases turns with
  | enter => exact .inr ⟨_, rfl⟩
  | fail | succeed | complete => cases active
  | finish judges | yield judges =>
      simp only [UnitOfWork.status_finish, UnitOfWork.status_yield] at active
      cases judges with
      | failed => cases active
      | _ => exact .inl active
  | leave leaves => cases leaves <;> exact .inl active
  | _ => exact .inl active

theorem Busy.step (h : w.Busy) (step : w.Step l w') : w'.Busy := by
  intro u x' unit' active
  cases unit : w.units[u]? with
  | none =>
      rw [step.inDoubt_of_new unit unit'] at active
      cases active
  | some x =>
      by_cases same : x'.status = x.status
      · obtain ⟨c, thread, scope, running⟩ := h unit (same ▸ active)
        obtain ⟨s', after, advances⟩ := step.advances running
        cases advances with
        | stay => exact ⟨c, thread, scope, after⟩
        | answered waits => rcases waits with eq | eq | eq <;> cases eq
        | turn unit₁ turns eq =>
            obtain rfl := Option.some.inj (unit.symm.trans unit₁)
            subst eq
            obtain rfl := Option.some.inj (unit'.symm.trans (units_evolve unit))
            exact absurd active turns.of_work
      · obtain ⟨running, turns, eq⟩ := step.takesTurn unit unit' same
        subst eq
        rcases turns.active active with before | ⟨scope, rfl⟩
        · exact absurd (active.trans before.symm) same
        · exact ⟨_, _, scope, operations_evolve running⟩

/-! ## The commit of the transaction -/

/-- A call commits a transaction. -/
def Commits (w : World) (inner : Inner) (n : Nat) : Prop :=
  inner.transaction = n ∧ ∃ t call, w.transactions[n]? = some t ∧
    t.calls[inner.call]? = some call ∧ call.isCommit

theorem Commits.step (h : w.Commits inner n) (step : w.Step l w') : w'.Commits inner n := by
  obtain ⟨eq, t, call, transaction, hc, commit⟩ := h
  obtain ⟨actions, after⟩ := step.transaction_forth transaction
  obtain ⟨call', hc', commit'⟩ := Transaction.isCommit_runAt hc commit w.now actions
  exact ⟨eq, _, call', after, hc', commit'⟩

/-- The commit that a root begins once its capability has succeeded. -/
theorem commits_complete (w : World) (c u : Nat) (f : UnitOfWork → UnitOfWork)
    (lt : scope.transaction < w.transactions.length) :
    (w.evolve c u f scope.transaction
      (w.completion scope ++ (w.completeDependent scope).callSteps scope.transaction .commit)
      s').Commits ((w.completeDependent scope).lastCall scope.transaction) scope.transaction := by
  have transaction := List.getElem?_eq_getElem lt
  generalize w.transactions[scope.transaction] = t at transaction
  obtain ⟨-, call, hc, commit⟩ := t.exists_commit_runAt w.now (w.mild_completion scope)
  have last : (w.completeDependent scope).callsOn scope.transaction =
      (t.runAt w.now (w.completion scope)).calls.length := by
    rw [completeDependent_eq]
    simp [callsOn, transact, modifyTransaction, transaction]
  rw [← last] at hc
  exact ⟨rfl, _, call, transactions_evolve transaction, hc, commit⟩

/-- Who completes a transaction holds a handle of its owner and waits for a commit of it. -/
def Completing (w : World) : Prop :=
  ∀ {c u thread : Nat} {scope : Scope} {inner : Inner},
    w.operations[c]? = some ⟨u, thread, .completing scope inner⟩ →
      scope.owner = true ∧ w.Commits inner scope.transaction

theorem Completing.step (h : w.Completing) (order : w.Orderly) (step : w.Step l w') :
    w'.Completing := by
  intro c u thread scope inner running
  rcases step.operation_back running with ⟨s, before, advances⟩ | ⟨-, opening⟩
  · cases advances with
    | stay =>
        obtain ⟨owner, commits⟩ := h before
        exact ⟨owner, commits.step step⟩
    | turn unit turns eq =>
        subst eq
        generalize eq : Stage.completing scope inner = s' at turns
        cases turns with
        | complete owner =>
            obtain ⟨rfl, rfl⟩ := Stage.completing.inj eq
            exact ⟨owner, w.commits_complete c u _ (order.entered before unit rfl).2⟩
        | leave =>
            revert eq
            split <;> rintro ⟨⟩
        | _ => cases eq
  · cases opening

/-- The commit of a root finds that the commit of its transaction has failed, and says so. -/
inductive Revokes (w w' : World) (u c : Nat) : Prop
  | intro {x : UnitOfWork} {thread : Nat} {scope : Scope} {inner : Inner} {cause : Aborted}
      {s' : Stage} (unit : w.units[u]? = some x) (root : x.isRoot = true)
      (running : w.operations[c]? = some ⟨u, thread, .completing scope inner⟩)
      (owner : scope.owner = true) (commits : w.Commits inner scope.transaction)
      (failed : w.result? inner = some (.error cause))
      (after : w'.operations[c]? = some ⟨u, thread, s'⟩)
      (settled : s'.response? =
        some (.error (.failure (w.commitFailure u scope.transaction cause)))) : Revokes w w' u c

/-- A turn that revokes what a unit has committed is that of the commit whose transaction failed. -/
theorem Turns.revoked (turns : w.Turns c u x thread l s f n actions s')
    (committed : x.status = .committed) (aborted : (f x).status = .aborted)
    (shown : s.isRunning = true → s.unitStatus? = some x.status) :
    ∃ scope inner cause, s = .completing scope inner ∧ w.result? inner = some (.error cause) ∧
      s'.response? = some (.error (.failure (w.commitFailure u scope.transaction cause))) := by
  have unchanged (same : (f x).status = x.status) : False := by
    rw [same, committed] at aborted
    cases aborted
  have early {status : Status} (here : some status = some x.status) (ne : status ≠ .committed) :
      False := ne ((Option.some.inj here).trans committed)
  cases turns with
  | finish judges | yield judges =>
      cases judges with
      | failed returned => exact ⟨_, _, _, rfl, returned, rfl⟩
      | _ => exact (unchanged (by simp)).elim
  | enter => cases aborted
  | fail => exact (early (shown rfl) (by simp)).elim
  | succeed | complete => cases aborted
  | leave leaves => cases leaves <;> exact (unchanged rfl).elim
  | _ => exact (unchanged rfl).elim

theorem Step.revokes (step : w.Step l w') (order : w.Orderly) (completing : w.Completing)
    (unit : w.units[u]? = some x) (unit' : w'.units[u]? = some x')
    (committed : x.status = .committed) (aborted : x'.status = .aborted) :
    ∃ c, w.Revokes w' u c := by
  have ne : x'.status ≠ x.status := by simp [committed, aborted]
  obtain ⟨running, turns, eq⟩ := step.takesTurn unit unit' ne
  subst eq
  obtain ⟨scope, inner, cause, rfl, failed, settled⟩ :=
    turns.revoked committed aborted fun busy => (order.shown running unit busy).2
  obtain ⟨owner, commits⟩ := completing running
  have root := (order.entered running unit rfl).1.symm.trans owner
  exact ⟨_, unit, root, running, owner, commits, failed, operations_evolve running, settled⟩

/-! ## Whole lives -/

/-- All along a course the units stand with their operations as they should. -/
theorem Course.attended (course : Course managers past ws) :
    ∀ w ∈ ws, w.Orderly ∧ w.Busy ∧ w.Completing := by
  apply course.forall_mem (P := fun w => w.Orderly ∧ w.Busy ∧ w.Completing)
  · refine ⟨orderly_initial managers, ?_, ?_⟩
    · intro u x unit
      cases unit
    · intro c u thread scope inner running
      cases running
  · rintro w w' l ⟨order, busy, completing⟩ step
    exact ⟨order.step step, busy.step step, completing.step order step⟩

/-- Who works in a scope is the one operation that the capability of its unit was called for. -/
theorem Course.calls_eq (course : Course managers past ws) (mem : w ∈ ws)
    (running : w.operations[c]? = some ⟨u, thread, s⟩) (within : s.scope? = some scope) :
    calls u ws = [c] := by
  obtain ⟨rest, rfl⟩ := course.exists_eq_cons
  have one := length_calls_le course.isChain (orderly_initial managers) u
  rcases mem_calls course.isChain mem running within with ⟨s, before, -⟩ | call
  · cases before
  · obtain ⟨d, eq⟩ := List.length_eq_one_iff.mp
      (Nat.le_antisymm one (List.length_pos_of_mem call))
    rw [eq] at call ⊢
    rw [List.mem_singleton.mp call]

/-- The life of a unit, in every run.

A run passes through a course of worlds. In every such course a unit is in doubt first, then active
and then aborted, or committed and perhaps aborted after that. It is revoked after it was committed
only if it is a root, by the commit that its capability was called for, when the commit of its own
transaction has failed. The capability is called at most once, and the unit is active exactly while
the capability works. -/
theorem life_of_unit (managers : List Manager) (past : List Action) :
    (∃ ws, Course managers past ws) ∧
    ∀ (ws : List World) (u : Nat), Course managers past ws →
      (statuses u ws <+: [.inDoubt, .active, .aborted] ∨
        statuses u ws <+: [.inDoubt, .active, .committed, .aborted]) ∧
      (∀ (w w' : World) (x x' : UnitOfWork), [w, w'] <:+: ws → w.units[u]? = some x →
        w'.units[u]? = some x' → x.status = .committed → x'.status = .aborted →
          ∃ c, calls u ws = [c] ∧ w.Revokes w' u c) ∧
      (calls u ws).length ≤ 1 ∧
      ∀ (w : World) (x : UnitOfWork), w ∈ ws → w.units[u]? = some x →
        (x.status = .active ↔ ∃ c, calls u ws = [c] ∧ w.isAtWork u c = true) := by
  refine ⟨exists_course managers past, fun ws u course => ⟨?_, ?_, ?_, ?_⟩⟩
  · obtain ⟨rest, rfl⟩ := course.exists_eq_cons
    exact isPrefix_statuses course.isChain (orderly_initial managers) rfl
  · intro w w' x x' adjacent unit unit' committed aborted
    have mem : w ∈ ws := adjacent.subset (List.mem_cons_self ..)
    obtain ⟨order, -, completing⟩ := course.attended w mem
    obtain ⟨l, step⟩ := course.follows adjacent
    obtain ⟨c, revokes⟩ := step.revokes order completing unit unit' committed aborted
    obtain ⟨-, -, running, -⟩ := id revokes
    exact ⟨c, course.calls_eq mem running rfl, revokes⟩
  · obtain ⟨rest, rfl⟩ := course.exists_eq_cons
    exact length_calls_le course.isChain (orderly_initial managers) u
  · intro w x mem unit
    obtain ⟨order, busy, -⟩ := course.attended w mem
    constructor
    · intro active
      obtain ⟨c, thread, scope, running⟩ := busy unit active
      exact ⟨c, course.calls_eq mem running rfl, isAtWork_iff.mpr ⟨thread, scope, running⟩⟩
    · rintro ⟨c, -, work⟩
      obtain ⟨thread, scope, running⟩ := isAtWork_iff.mp work
      exact (Option.some.inj (order.shown running unit rfl).2).symm

/-- A participant of a root's transaction refuses to prepare. -/
def refusing : List Action :=
  [.openUnit ⟨"root", "shared", none, 0, 0, .default⟩, .commit 0 0, .enlist 0 7,
    .answer (.operation 1) (.response (.data ())), .answer (.operation 1) (.vote (.refused "no")),
    .answer (.operation 1) .done]

/-- The life of a root whose transaction fails to commit: it is active, and it is revoked. -/
theorem life_of_unit_refusing :
    ∃ ws, Course [.permissive] refusing ws ∧
      (∃ w c, w ∈ ws ∧ calls 0 ws = [c] ∧ w.isAtWork 0 c = true) ∧
      ∃ w w' c, [w, w'] <:+: ws ∧ calls 0 ws = [c] ∧ w.Revokes w' 0 c := by
  obtain ⟨⟨ws, course⟩, lives⟩ := life_of_unit [.permissive] refusing
  obtain ⟨-, revoked, -, active⟩ := lives ws 0 course
  refine ⟨ws, course, ?_, ?_⟩
  · have mem : (initial [.permissive]).run (refusing.take 2) ∈ ws :=
      course.run_mem (List.take_prefix 2 refusing)
    obtain ⟨c, call, work⟩ := (active _ _ mem rfl).mp rfl
    exact ⟨_, c, mem, call, work⟩
  · have mem : (initial [.permissive]).run (refusing.take 4) ∈ ws :=
      course.run_mem (List.take_prefix 4 refusing)
    have committed : statusOf? 0 ((initial [.permissive]).run (refusing.take 4)) =
        some .committed := rfl
    have ends : statusOf? 0 ((initial [.permissive]).run refusing) ≠ some .committed := by decide
    obtain ⟨w, w', adjacent, before, after⟩ :=
      course.exists_ceases (P := fun w => statusOf? 0 w = some .committed) mem committed ends
    obtain ⟨x, unit, status⟩ := Option.map_eq_some_iff.mp before
    obtain ⟨l, step⟩ := course.follows adjacent
    obtain ⟨x', unit', -⟩ := step.forth unit
    have order := (course.attended w (adjacent.subset (List.mem_cons_self ..))).1
    have changed : x'.status ≠ .committed := by simpa [statusOf?, unit'] using after
    have aborted : x'.status = .aborted := by
      have leads := step.leads order unit unit'
      rw [status] at leads
      exact (leads.resolve_left changed).eq_aborted
    obtain ⟨c, call, revokes⟩ := revoked w w' x x' adjacent unit unit' status aborted
    exact ⟨w, w', c, adjacent, call, revokes⟩

end NestedWork.World
