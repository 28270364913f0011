import NestedWork.Proofs.World.Lives

/-!
# The transaction of a tree

A root that has come to hold a transaction holds it for good or gives it up, and all its commits
work in it. Nobody else commits it, so its fate is the one that the root shows.

## Implementation notes

That a unit holds a transaction, or has held it and given it up, cannot be told from the unit once
the handle is gone. What is kept by every step is therefore stated of a given root and a given
transaction, and begins to hold when the root opens the transaction.
-/

namespace NestedWork.World

variable {w w' : World} {l : Label} {c u thread n : Nat} {x : UnitOfWork} {s s' : Stage}
  {f : UnitOfWork → UnitOfWork} {actions : List Transaction.Action}

/-! ## Who works in it -/

/-- A root and the transaction of its tree: no other unit holds it, and a commit with a handle of
the owner works in it exactly if it is a commit of the root. -/
structure Holds (w : World) (u n : Nat) : Prop where
  root : ∃ x, w.units[u]? = some x ∧ x.isRoot = true ∧ (x.slot = .live n ∨ x.slot = .released)
  others : ∀ {v : Nat} {y : UnitOfWork}, w.units[v]? = some y → y.slot = .live n → v = u
  scopes : ∀ {c v thread : Nat} {s : Stage} {scope : Scope},
    w.operations[c]? = some ⟨v, thread, s⟩ → s.scope? = some scope → scope.owner = true →
      (scope.transaction = n ↔ v = u)

namespace Holds

/-- What a root holds is kept by a change that gives it to nobody else. -/
theorem of_back (h : w.Holds u n)
    (root : ∀ {x : UnitOfWork}, w.units[u]? = some x → ∃ x', w'.units[u]? = some x' ∧
      x'.lineage = x.lineage ∧ (x'.slot = x.slot ∨ x'.slot = .released))
    (units : ∀ {v : Nat} {y : UnitOfWork}, w'.units[v]? = some y → y.slot = .live n →
      ∃ y', w.units[v]? = some y' ∧ y'.slot = .live n)
    (scopes : ∀ {c v thread : Nat} {s : Stage} {scope : Scope},
      w'.operations[c]? = some ⟨v, thread, s⟩ → s.scope? = some scope → scope.owner = true →
        (∃ s', w.operations[c]? = some ⟨v, thread, s'⟩ ∧ s'.scope? = some scope) ∨
          ∃ y, w.units[v]? = some y ∧ y.slot = .live scope.transaction) : w'.Holds u n where
  root := by
    obtain ⟨x, unit, top, slot⟩ := h.root
    obtain ⟨x', unit', lineage, slot'⟩ := root unit
    refine ⟨x', unit', by simpa [UnitOfWork.isRoot, lineage] using top, ?_⟩
    rcases slot' with same | released
    · rwa [same]
    · exact .inr released
  others := by
    intro v y unit live
    obtain ⟨y', unit', live'⟩ := units unit live
    exact h.others unit' live'
  scopes := by
    intro c v thread s scope running within owner
    rcases scopes running within owner with ⟨s', before, same⟩ | ⟨y, unit, live⟩
    · exact h.scopes before same owner
    · constructor
      · rintro rfl
        exact h.others unit live
      · rintro rfl
        obtain ⟨x, unit', -, slot⟩ := h.root
        obtain rfl := Option.some.inj (unit.symm.trans unit')
        rcases slot with slot | slot
        · exact Slot.live.inj (live.symm.trans slot)
        · cases live.symm.trans slot

/-- Every step keeps what a root holds. -/
theorem step (h : w.Holds u n) (lt : n < w.transactions.length) (step : w.Step l w') :
    w'.Holds u n := by
  apply h.of_back
  · intro x unit
    obtain ⟨x', unit', -, lineage, slot, -⟩ := step.forth unit
    refine ⟨x', unit', lineage, slot.resolve_left fun pending => ?_⟩
    obtain ⟨y, before, -, held⟩ := h.root
    obtain rfl := Option.some.inj (unit.symm.trans before)
    rcases held with held | held <;> cases held.symm.trans pending
  · intro v y unit live
    rcases step.slot_back unit live with before | ⟨rfl, -⟩
    · exact before
    · exact absurd lt (Nat.lt_irrefl _)
  · intro c v thread s scope running within owner
    exact step.scope_back running within owner

end Holds

/-! ## Its fate -/

/-- The transaction goes on without a commit being begun on it. -/
def Onward (w w' : World) (n : Nat) (t : Transaction) : Prop :=
  ∃ actions, (∀ a ∈ actions, a ≠ .begin .commit) ∧
    w'.transactions[n]? = some (t.runAt w.now actions)

/-- A commit of a unit is committing the transaction that the unit owns. -/
def Completes (w : World) (u c : Nat) (inner : Inner) : Prop :=
  ∃ thread scope, w.operations[c]? = some ⟨u, thread, .completing scope inner⟩

/-- The state of a root and of the transaction of its tree. The root has begun at most one commit of
it, and once it is committed or aborted it tells the fate. -/
structure Fate (w : World) (u n : Nat) (x : UnitOfWork) (t : Transaction) : Prop where
  unit : w.units[u]? = some x
  transaction : w.transactions[n]? = some t
  sole : t.commits ≤ 1
  early : x.status.isTerminal = false → t.commits = 0
  aborted : x.status = .aborted → t.status = .aborted
  committed : x.status = .committed → t.status = .committed ∨ ∃ c inner, w.Completes u c inner
  inner : ∀ {c : Nat} {inner : Inner}, w.Completes u c inner →
    inner.transaction = n ∧ ∃ call, t.calls[inner.call]? = some call ∧ call.isCommit

section Onward

variable {t : Transaction}

theorem Onward.of_eq (same : w'.transactions[n]? = some t) : w.Onward w' n t :=
  ⟨[], by simp, same⟩

theorem onward_transact (before : w.transactions[n]? = some t) (m : Nat)
    (mild : m = n → ∀ a ∈ actions, a ≠ .begin .commit) : w.Onward (w.transact m actions) n t := by
  by_cases same : m = n
  · subst same
    exact ⟨actions, mild rfl, by simp [transact, modifyTransaction, before]⟩
  · exact .of_eq (by simpa [transact, modifyTransaction, same] using before)

theorem onward_openTransaction (before : w.transactions[n]? = some t) (localId : String)
    (options : TransactionOptions) : w.Onward (w.openTransaction localId options) n t := by
  apply Onward.of_eq
  rw [openTransaction, List.getElem?_append_left (List.getElem?_eq_some_iff.mp before).1, before]

end Onward

namespace Fate

variable {t : Transaction}

/-- The fate is kept where the root keeps its status and is not completing its transaction more or
less than before. -/
theorem carry {x' : UnitOfWork} (h : w.Fate u n x t) (sound : t.Sound)
    (unit : w'.units[u]? = some x') (status : x'.status = x.status) (onward : w.Onward w' n t)
    (completing : ∀ c inner, w'.Completes u c inner ↔ w.Completes u c inner) :
    ∃ t', w'.Fate u n x' t' := by
  obtain ⟨actions, mild, transaction⟩ := onward
  have same : (t.runAt w.now actions).commits = t.commits := Transaction.commits_runAt mild
  refine ⟨_, unit, transaction, ?_, ?_, ?_, ?_, ?_⟩
  · rw [same]
    exact h.sole
  · intro open'
    rw [same]
    exact h.early (status ▸ open')
  · intro aborted
    exact Transaction.run_aborted (h.aborted (status ▸ aborted)) _
  · intro committed
    rcases h.committed (status ▸ committed) with done | ⟨c, inner, running⟩
    · exact .inl (sound.committed_runAt done actions)
    · exact .inr ⟨c, inner, (completing c inner).mpr running⟩
  · intro c inner running
    obtain ⟨eq, call, hc, commit⟩ := h.inner ((completing c inner).mp running)
    exact ⟨eq, Transaction.isCommit_runAt hc commit w.now actions⟩

/-- Steps that leave the operations and the status of the root alone keep the fate. -/
theorem still (h : w.Fate u n x t) (sound : t.Sound) (same : w.Still w')
    (onward : w.Onward w' n t) : ∃ x' t', w'.Fate u n x' t' := by
  obtain ⟨x', unit', alike⟩ := same.forth h.unit
  refine ⟨x', h.carry sound unit' alike.status onward ?_⟩
  intro c inner
  rw [Completes, same.operations]
  rfl

/-- An operation that is begun or moved, and is no commit under way, keeps the fate. -/
theorem aside (h : w.Fate u n x t) (sound : t.Sound) (units : w'.units = w.units)
    (transactions : w'.transactions = w.transactions)
    (operations : ∀ (d : Nat) (o : Operation), o.stage.isRunning = true →
      (w'.operations[d]? = some o ↔ w.operations[d]? = some o)) :
    ∃ x' t', w'.Fate u n x' t' := by
  refine ⟨x, h.carry sound (units ▸ h.unit) rfl (.of_eq (transactions ▸ h.transaction)) ?_⟩
  intro c inner
  constructor
  · rintro ⟨thread, scope, running⟩
    exact ⟨thread, scope, (operations c _ rfl).mp running⟩
  · rintro ⟨thread, scope, running⟩
    exact ⟨thread, scope, (operations c _ rfl).mpr running⟩

/-- A turn on another unit keeps the fate. -/
theorem turn_of_ne (h : w.Fate u n x t) (sound : t.Sound) (holds : w.Holds u n) {v m : Nat}
    {y : UnitOfWork} (running : w.operations[c]? = some ⟨v, thread, s⟩) (ne : v ≠ u)
    (turns : w.Turns c v y thread l s f m actions s') :
    ∃ x' t', (w.evolve c v f m actions s').Fate u n x' t' := by
  have mild : m = n → ∀ a ∈ actions, a ≠ .begin .commit := by
    rintro rfl
    rcases turns.mild with mild | ⟨scope, rfl, owner, eq⟩
    · exact mild
    · exact absurd ((holds.scopes running rfl owner).mp eq.symm) ne
  refine ⟨x, h.carry sound ((units_evolve_ne ne).trans h.unit) rfl
    (onward_transact h.transaction m mild) ?_⟩
  intro d inner
  by_cases same : c = d
  · subst same
    constructor
    · rintro ⟨thread', scope, after⟩
      cases (operations_evolve running).symm.trans after
      exact absurd rfl ne
    · rintro ⟨thread', scope, before⟩
      cases running.symm.trans before
      exact absurd rfl ne
  · rw [Completes, operations_evolve_ne same]
    rfl

/-- A turn of an operation that is no commit under way keeps the fate. -/
theorem turn_of_idle (h : w.Fate u n x t) (sound : t.Sound) {m : Nat}
    (running : w.operations[c]? = some ⟨u, thread, s⟩) (idle : s.isRunning = false)
    (turns : w.Turns c u x thread l s f m actions s') :
    ∃ x' t', (w.evolve c u f m actions s').Fate u n x' t' := by
  obtain ⟨idle', status, -⟩ := turns.quiet idle
  have mild : m = n → ∀ a ∈ actions, a ≠ .begin .commit := by
    intro _
    rcases turns.mild with mild | ⟨scope, rfl, -⟩
    · exact mild
    · cases idle
  refine ⟨f x, h.carry sound (units_evolve h.unit) status
    (onward_transact h.transaction m mild) ?_⟩
  intro d inner
  by_cases same : c = d
  · subst same
    constructor
    · rintro ⟨thread', scope, after⟩
      cases (operations_evolve running).symm.trans after
      cases idle'
    · rintro ⟨thread', scope, before⟩
      cases running.symm.trans before
      cases idle
  · rw [Completes, operations_evolve_ne same]
    rfl

/-- A turn of the commit that runs on the root: the fate need only be told of this commit. -/
theorem turn_of_busy (h : w.Fate u n x t) (order : w.Orderly) {m : Nat} {t' : Transaction}
    (running : w.operations[c]? = some ⟨u, thread, s⟩) (busy : s.isRunning = true)
    (transaction : (w.evolve c u f m actions s').transactions[n]? = some t')
    (sole : t'.commits ≤ 1) (early : (f x).status.isTerminal = false → t'.commits = 0)
    (aborted : (f x).status = .aborted → t'.status = .aborted)
    (committed : (f x).status = .committed →
      t'.status = .committed ∨ ∃ scope inner, s' = .completing scope inner)
    (inner : ∀ {scope : Scope} {inner : Inner}, s' = .completing scope inner →
      inner.transaction = n ∧ ∃ call, t'.calls[inner.call]? = some call ∧ call.isCommit) :
    (w.evolve c u f m actions s').Fate u n (f x) t' where
  unit := units_evolve h.unit
  transaction
  sole
  early
  aborted
  committed := by
    intro done
    rcases committed done with done | ⟨scope, i, rfl⟩
    · exact .inl done
    · exact .inr ⟨c, i, thread, scope, operations_evolve running⟩
  inner := by
    rintro d inner' ⟨thread', scope, after⟩
    have same : c = d := by
      by_contra ne
      rw [operations_evolve_ne ne] at after
      exact ne (order.alone running after busy rfl)
    subst same
    cases (operations_evolve running).symm.trans after
    exact inner rfl

/-- A committed root has committed its transaction, unless the commit is still at it. -/
theorem done (h : w.Fate u n x t) (order : w.Orderly)
    (running : w.operations[c]? = some ⟨u, thread, s⟩) (busy : s.isRunning = true)
    (past : ∀ scope inner, s ≠ .completing scope inner) (committed : x.status = .committed) :
    t.status = .committed := by
  rcases h.committed committed with done | ⟨d, inner, thread', scope, completing⟩
  · exact done
  · obtain rfl := order.alone running completing busy rfl
    cases running.symm.trans completing
    exact absurd rfl (past scope inner)

/-- The result that a commit of the root has settled is the fate of the transaction. -/
theorem of_judges (h : w.Fate u n x t) (sound : t.Sound) {scope : Scope} {result : Response Unit}
    (running : w.operations[c]? = some ⟨u, thread, s⟩) (shown : s.unitStatus? = some x.status)
    (judges : w.Judges u s scope result f) : t.status = result.unitStatus := by
  have returned {inner : Inner} {r : Except Aborted Unit} (eq : inner.transaction = n)
      (finished : w.result? inner = some r) : t.result? inner.call = some r := by
    simpa [World.result?, eq, h.transaction] using finished
  cases judges with
  | left | discarded => exact h.aborted (Option.some.inj shown).symm
  | committed finished =>
      obtain ⟨eq, call, hc, commit⟩ := h.inner ⟨thread, scope, running⟩
      exact sound.committed_of_ok hc commit (returned eq finished)
  | failed finished =>
      obtain ⟨eq, call, hc, commit⟩ := h.inner ⟨thread, scope, running⟩
      exact (sound.aborted_of_error hc commit (returned eq finished) h.sole).1

/-- The root of a committed transaction is committed. -/
theorem status_of_committed (h : w.Fate u n x t) (sound : t.Sound)
    (committed : t.status = .committed) : x.status = .committed := by
  have open' (early : x.status.isTerminal = false) : False :=
    sound.reasoned.not_committed (h.early early) committed
  cases status : x.status with
  | committed => rfl
  | aborted => cases committed.symm.trans (h.aborted status)
  | active | inDoubt => exact (open' (by rw [status]; rfl)).elim

/-- A turn of the commit that runs on the root and has nothing more to do with the transaction's
fate. -/
theorem turn_of_mild (h : w.Fate u n x t) (sound : t.Sound) (order : w.Orderly) {m : Nat}
    (running : w.operations[c]? = some ⟨u, thread, s⟩) (busy : s.isRunning = true)
    (mild : ∀ a ∈ actions, a ≠ .begin .commit)
    (past : ∀ scope inner, s' ≠ .completing scope inner)
    (early : (f x).status.isTerminal = false → t.commits = 0)
    (committed : (f x).status = .committed → t.status = .committed)
    (aborted : (f x).status = .aborted → t.status = .aborted) :
    ∃ x' t', (w.evolve c u f m actions s').Fate u n x' t' := by
  obtain ⟨actions', mild', transaction⟩ := onward_transact h.transaction m fun _ => mild
  have same : (t.runAt w.now actions').commits = t.commits := Transaction.commits_runAt mild'
  refine ⟨f x, _, h.turn_of_busy order running busy transaction ?_ ?_ ?_ ?_ ?_⟩
  · exact same ▸ h.sole
  · exact fun open' => same.trans (early open')
  · exact fun done => Transaction.run_aborted (aborted done) _
  · exact fun done => .inl (sound.committed_runAt (committed done) actions')
  · exact fun eq => absurd eq (past _ _)

/-- A turn that shows no more than the result that is settled keeps the fate. -/
theorem turn_of_judges (h : w.Fate u n x t) (sound : t.Sound) (order : w.Orderly) {m : Nat}
    {scope : Scope} {result : Response Unit} {g : UnitOfWork → UnitOfWork}
    (running : w.operations[c]? = some ⟨u, thread, s⟩) (busy : s.isRunning = true)
    (judges : w.Judges u s scope result f) (same : (g x).status = (f x).status)
    (mild : ∀ a ∈ actions, a ≠ .begin .commit)
    (past : ∀ scope inner, s' ≠ .completing scope inner) :
    ∃ x' t', (w.evolve c u g m actions s').Fate u n x' t' := by
  have shown := (order.shown running h.unit busy).2
  have status := same.trans (judges.status_eq shown)
  have told := h.of_judges sound running shown judges
  rw [← status] at told
  apply h.turn_of_mild sound order running busy mild past
  · intro open'
    rw [status, Response.isTerminal_unitStatus] at open'
    cases open'
  · exact fun done => told.trans done
  · exact fun done => told.trans done

/-- A turn of the commit that runs on the root keeps the fate. -/
theorem turn_of_root (h : w.Fate u n x t) (sound : t.Sound) (order : w.Orderly)
    (holds : w.Holds u n) {m : Nat} (running : w.operations[c]? = some ⟨u, thread, s⟩)
    (busy : s.isRunning = true) (turns : w.Turns c u x thread l s f m actions s') :
    ∃ x' t', (w.evolve c u f m actions s').Fate u n x' t' := by
  have shown := (order.shown running h.unit busy).2
  have top : x.isRoot = true := by
    obtain ⟨x', unit, top, -⟩ := holds.root
    obtain rfl := Option.some.inj (h.unit.symm.trans unit)
    exact top
  have here {scope : Scope} (within : s.scope? = some scope) :
      scope.owner = true ∧ scope.transaction = n := by
    have owner : scope.owner = true := (order.entered running h.unit within).1.trans top
    exact ⟨owner, (holds.scopes running within owner).mpr rfl⟩
  cases turns with
  | refuse | orphan =>
      have status : x.status = .inDoubt := (Option.some.inj shown).symm
      exact h.turn_of_mild sound order running busy (by simp) (by simp)
        (fun open' => h.early open') (by simp [status]) (by simp [status])
  | enter =>
      have status : x.status = .inDoubt := (Option.some.inj shown).symm
      refine h.turn_of_mild sound order running busy ?_ (by simp)
        (fun _ => h.early (by rw [status]; rfl)) (by rintro ⟨⟩) (by rintro ⟨⟩)
      split <;> simp
  | @fail scope e =>
      have status : x.status = .active := (Option.some.inj shown).symm
      have none : t.commits = 0 := h.early (by rw [status]; rfl)
      obtain ⟨-, rfl⟩ := here rfl
      have other : Purpose.abort .scopeNotCompleted ≠ .commit := by simp
      have same : (t.runAt w.now
          (w.callSteps scope.transaction (.abort .scopeNotCompleted))).commits = t.commits :=
        Transaction.commits_runAt (w.mild_callSteps scope.transaction other)
      refine ⟨_, _, h.turn_of_busy order running busy (transactions_evolve h.transaction)
        ?_ ?_ ?_ ?_ ?_⟩
      · rw [same]
        exact h.sole
      · rintro ⟨⟩
      · have open' := sound.reasoned.not_committed none
        exact fun _ => sound.aborted_of_abort open' w.now .scopeNotCompleted _
      · rintro ⟨⟩
      · rintro scope' inner ⟨⟩
  | succeed joined =>
      rw [(here rfl).1] at joined
      cases joined
  | @complete scope owner =>
      have status : x.status = .active := (Option.some.inj shown).symm
      have none : t.commits = 0 := h.early (by rw [status]; rfl)
      obtain ⟨-, rfl⟩ := here rfl
      obtain ⟨one, call, hc, commit⟩ := t.exists_commit_runAt w.now (w.mild_completion scope)
      have last : (w.completeDependent scope).callsOn scope.transaction =
          (t.runAt w.now (w.completion scope)).calls.length := by
        rw [completeDependent_eq]
        simp [callsOn, transact, modifyTransaction, h.transaction]
      rw [← last] at one hc
      refine ⟨_, _, h.turn_of_busy order running busy (transactions_evolve h.transaction)
        ?_ (by rintro ⟨⟩) (by rintro ⟨⟩) ?_ ?_⟩
      · rw [none] at one
        exact Nat.le_of_eq one
      · exact fun _ => .inr ⟨_, _, rfl⟩
      · intro scope' inner eq
        obtain ⟨rfl, rfl⟩ := Stage.completing.inj eq
        exact ⟨rfl, call, hc, commit⟩
  | discard held finished =>
      have status : x.status = .aborted := (Option.some.inj shown).symm
      exact h.turn_of_mild sound order running busy (w.mild_callSteps _ (by simp)) (by simp)
        h.early (by simp [status]) h.aborted
  | finish judges =>
      exact h.turn_of_judges sound order running busy judges (by simp) (by simp) (by simp)
  | yield judges =>
      exact h.turn_of_judges sound order running busy judges (by simp)
        (w.mild_callSteps _ (by simp)) (by simp)
  | yielded finished =>
      exact h.turn_of_mild sound order running busy (by simp) (by simp) h.early
        (fun done => h.done order running busy (by simp) done) h.aborted
  | decline | dispose | surrender => cases busy
  | leave leaves => cases leaves <;> cases busy

/-- Every step keeps the fate, unless a client commits the transaction. -/
theorem step (h : w.Fate u n x t) (order : w.Orderly) (lived : w.Lived) (holds : w.Holds u n)
    (s : w.Step l w') (other : l ≠ .commit n) : ∃ x' t', w'.Fate u n x' t' := by
  have sound := lived.sound h.transaction
  have same (w' : World) (eq : w'.transactions = w.transactions) : w.Onward w' n t :=
    .of_eq (eq ▸ h.transaction)
  cases s with
  | tick | register | forget =>
      exact h.still sound (.of_units rfl rfl (Nat.le_refl _)) (same _ rfl)
  | openTransaction localId options =>
      exact h.still sound (.of_units rfl rfl (by simp [openTransaction]))
        (onward_openTransaction h.transaction localId options)
  | transact m actions mild =>
      exact h.still sound (.of_units rfl rfl (by simp))
        (onward_transact h.transaction m fun _ => mild)
  | commit m =>
      exact h.still sound (.of_units rfl rfl (by simp))
        (onward_transact h.transaction m fun eq => absurd (congrArg Label.commit eq) other)
  | lower => exact h.still sound (w.still_lower _ _) (same _ rfl)
  | @lowerLive v m =>
      exact h.still sound (w.still_lowerLive v m _ _)
        (onward_transact h.transaction m fun _ => w.mild_callSteps m (by simp))
  | openUnit o options =>
      refine ⟨x, h.carry sound (forth_openedUnit o options h.unit) rfl (same _ rfl) ?_⟩
      exact fun _ _ => Iff.rfl
  | refuse | release =>
      refine h.aside sound rfl rfl fun d o busy => ⟨fun after => ?_, operations_push_of⟩
      rcases operations_push after with old | ⟨-, rfl⟩
      · exact old
      · cases busy
  | push aside =>
      refine h.aside sound rfl rfl fun d o busy => ⟨fun after => ?_, operations_push_of⟩
      rcases operations_push after with old | ⟨-, rfl⟩
      · exact old
      · rcases aside with rfl | rfl | rfl <;> cases busy
  | @accept v y unit allowed thread =>
      have up := update_accept unit thread
      obtain ⟨x', after, status⟩ : ∃ x', ((w.modifyUnit v fun x =>
          { x with committing := true }).push ⟨v, thread, .admission⟩).units[u]? = some x' ∧
          x'.status = x.status := by
        by_cases eq : u = v
        · subst eq
          obtain rfl := Option.some.inj (h.unit.symm.trans unit)
          exact ⟨_, up.after, rfl⟩
        · exact ⟨x, (up.units eq).trans h.unit, rfl⟩
      refine ⟨x', h.carry sound after status (same _ rfl) fun d inner => ⟨?_, ?_⟩⟩
      · rintro ⟨thread', scope, running⟩
        rcases operations_push running with old | ⟨-, new⟩
        · exact ⟨thread', scope, old⟩
        · cases new
      · rintro ⟨thread', scope, running⟩
        exact ⟨thread', scope, operations_push_of running⟩
  | @found c v thread y z asks unit root pending =>
      obtain ⟨x', after, -, -, status, -⟩ := forth_foundAt (w.rootOf v) z h.unit
      refine ⟨x', h.carry sound after status ?_ fun _ _ => Iff.rfl⟩
      exact onward_openTransaction h.transaction z.transactionId z.options
  | @turn l c v thread m y s s' f actions running unit turns =>
      by_cases eq : v = u
      · subst eq
        obtain rfl := Option.some.inj (h.unit.symm.trans unit)
        cases busy : s.isRunning with
        | false => exact h.turn_of_idle sound running busy turns
        | true => exact h.turn_of_root sound order holds running busy turns
      · exact h.turn_of_ne sound holds running eq turns
  | @answered c v thread s running waits =>
      refine h.aside sound rfl rfl fun d o busy => ⟨fun after => ?_, fun before => ?_⟩
      · rcases operations_moveTo running after with ⟨-, old⟩ | ⟨-, rfl⟩
        · exact old
        · cases busy
      · have ne : c ≠ d := by
          rintro rfl
          cases running.symm.trans before
          rcases waits with rfl | rfl | rfl <;> cases busy
        simpa [moveTo, ne] using before

end Fate

end NestedWork.World
