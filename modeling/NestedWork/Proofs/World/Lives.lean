import NestedWork.Proofs.Transaction.Abort
import NestedWork.Proofs.Transaction.Reason
import NestedWork.Proofs.World.Orderly

/-!
# The lives of transactions

Every transaction of the world goes by a run of its own, and so all that holds of runs on one
transaction holds of each of them.
-/

namespace NestedWork

namespace Transaction

variable {t : Transaction} {now : Instant} {actions : List Action}

theorem Reachable.runAt {options : TransactionOptions} (h : Reachable options now t)
    (actions : List Action) : Reachable options now (t.runAt now actions) := by
  induction actions generalizing t with
  | nil => exact h
  | cons a rest ih => exact ih (h.step a)

/-- What a commit returns, and what the status and the reason say of it. -/
structure Sound (t : Transaction) : Prop where
  consistent : t.Consistent
  explained : t.Explained
  reasoned : t.Reasoned

theorem Reachable.sound {options : TransactionOptions} (h : Reachable options now t) : t.Sound := by
  obtain ⟨localId, sequence, createdAt, started, steps, rfl⟩ := h.exists_run
  exact ⟨consistent_run localId sequence createdAt started options steps,
    explained_run localId sequence createdAt started options steps,
    reasoned_run localId sequence createdAt started options steps⟩

/-- Without a commit among its steps, a run begins none. -/
theorem commits_runAt (mild : ∀ a ∈ actions, a ≠ .begin .commit) :
    (t.runAt now actions).commits = t.commits := by
  have none : (actions.map fun a => (now, a)).countP (fun s => s.2.isCommit) = 0 := by
    rw [List.countP_eq_zero]
    intro s mem
    obtain ⟨a, here, rfl⟩ := List.mem_map.mp mem
    have other := mild a here
    cases a with
    | begin purpose => simpa [Action.isCommit] using other
    | _ => simp [Action.isCommit]
  rw [Transaction.runAt, commits_run, none]
  rfl

theorem localId_runAt (t : Transaction) (now : Instant) (actions : List Action) :
    (t.runAt now actions).localId = t.localId := t.localId_run _

/-- What a call has returned stands. -/
theorem result?_runAt {i : Nat} {r : Except Aborted Unit} (returned : t.result? i = some r)
    (actions : List Action) : (t.runAt now actions).result? i = some r :=
  run_induction (motive := fun t => t.result? i = some r) (fun h s => s.result?_eq h) returned _

/-- A commit is final, at whatever time the steps are taken. -/
theorem Sound.committed_runAt (h : t.Sound) (committed : t.status = .committed)
    (actions : List Action) : (t.runAt now actions).status = .committed :=
  run_committed h.consistent committed _

/-- An abort of a transaction that is not committed leaves it aborted. -/
theorem Sound.aborted_of_abort (h : t.Sound) (open' : t.status ≠ .committed) (now : Instant)
    (reason : AbortReason) (rest : List Action) :
    (t.runAt now (.begin (.abort reason) :: rest)).status = .aborted := by
  rw [runAt_cons]
  have struck : (t.perform now (.begin (.abort reason))).status = .aborted :=
    status_perform_of_aborts (a := .begin (.abort reason)) h.consistent trivial open' now
  exact run_aborted struck _

section Commit

variable {i : Nat} {c : Call}

/-- A commit that has returned without an error has committed. -/
theorem Sound.committed_of_ok (h : t.Sound) (hc : t.calls[i]? = some c) (commit : c.isCommit)
    (returned : t.result? i = some (.ok ())) : t.status = .committed :=
  h.explained c (List.mem_of_getElem? hc) (by simpa [Call.isCommit] using commit) _
    (ending?_of_result? hc returned)

/-- The only commit that was begun returns an error only for an aborted transaction, and with the
reason of the abort. -/
theorem Sound.aborted_of_error (h : t.Sound) (hc : t.calls[i]? = some c) (commit : c.isCommit)
    {e : Aborted} (returned : t.result? i = some (.error e)) (sole : t.commits ≤ 1) :
    t.status = .aborted ∧ e.localId = t.localId ∧ t.abortReason = some e.reason := by
  have mem := List.mem_of_getElem? hc
  have ending := ending?_of_result? hc returned
  have reason := h.reasoned.blamed sole c mem commit e ending
  have explained := h.explained c mem (by simpa [Call.isCommit] using commit) _ ending
  exact ⟨h.reasoned.reason.mp (by simp [reason]), explained.1, reason⟩

end Commit

/-- A commit stays one. -/
theorem isCommit_runAt {i : Nat} {c : Call} (hc : t.calls[i]? = some c) (commit : c.isCommit)
    (now : Instant) (actions : List Action) :
    ∃ c', (t.runAt now actions).calls[i]? = some c' ∧ c'.isCommit := by
  obtain ⟨c', hc', kept⟩ := t.exists_call_run (actions.map fun a => (now, a)) hc
  exact ⟨c', hc', (Call.isCommit_eq kept).trans commit⟩

/-- A commit that is begun after steps that begin none. -/
theorem exists_commit_runAt (t : Transaction) (now : Instant)
    (mild : ∀ a ∈ actions, a ≠ .begin .commit) :
    let j := (t.runAt now actions).calls.length
    let t' := t.runAt now (actions ++ .begin .commit :: strides j)
    t'.commits = t.commits + 1 ∧ ∃ c, t'.calls[j]? = some c ∧ c.isCommit := by
  intro j t'
  have split : t' = ((t.runAt now actions).begin .commit).runAt now (strides j) := by
    rw [show t' = _ from runAt_append t now actions _, runAt_cons]
    rfl
  have begun : ((t.runAt now actions).begin .commit).calls[j]? = some ⟨.commit, .looking⟩ := by
    exact List.getElem?_concat_length ..
  constructor
  · rw [split, commits_runAt (mild_strides j), commits_begin, commits_runAt mild]
    rfl
  · rw [split]
    exact isCommit_runAt begun rfl now (strides j)

end Transaction

namespace World

variable {w w' : World} {l : Label} {n : Nat} {t t' : Transaction}

/-- Every transaction is reached by a run. -/
def Lived (w : World) : Prop :=
  ∀ {n : Nat} {t : Transaction}, w.transactions[n]? = some t →
    ∃ options, Transaction.Reachable options w.now t

/-- A transaction after some steps of one is itself after a run. -/
theorem transactions_transact {m : Nat} {actions : List Transaction.Action}
    (after : (w.transact m actions).transactions[n]? = some t') :
    ∃ t, w.transactions[n]? = some t ∧ ∃ actions', t' = t.runAt w.now actions' := by
  by_cases same : m = n
  · subst same
    obtain ⟨t, before, rfl⟩ : ∃ t, w.transactions[m]? = some t ∧ t.runAt w.now actions = t' := by
      simpa [transact, modifyTransaction] using after
    exact ⟨t, before, actions, rfl⟩
  · exact ⟨t', by simpa [transact, modifyTransaction, same] using after, [], rfl⟩

theorem transactions_openTransaction {localId : String} {options : TransactionOptions}
    (after : (w.openTransaction localId options).transactions[n]? = some t') :
    w.transactions[n]? = some t' ∨
      t' = .create localId n (w.epoch.add w.now) w.now options := by
  simp only [openTransaction] at after
  rcases Nat.lt_trichotomy n w.transactions.length with lt | rfl | gt
  · rw [List.getElem?_append_left lt] at after
    exact .inl after
  · rw [List.getElem?_concat_length] at after
    exact .inr (Option.some.inj after).symm
  · rw [List.getElem?_eq_none (by simp; omega)] at after
    cases after

/-- A transaction after a step is an old one after a run, or a fresh one. -/
theorem Step.transaction_cases (s : w.Step l w') (after : w'.transactions[n]? = some t') :
    (∃ t, w.transactions[n]? = some t ∧ ∃ actions, t' = t.runAt w.now actions) ∨
      ∃ localId createdAt options, t' = .create localId n createdAt w.now options := by
  have kept (before : w.transactions[n]? = some t') :
      ∃ t, w.transactions[n]? = some t ∧ ∃ actions, t' = t.runAt w.now actions :=
    ⟨t', before, [], rfl⟩
  cases s with
  | openTransaction localId options =>
      rcases transactions_openTransaction after with before | fresh
      · exact .inl (kept before)
      · exact .inr ⟨_, _, _, fresh⟩
  | found =>
      rcases transactions_openTransaction (w := w) after with before | fresh
      · exact .inl (kept before)
      · exact .inr ⟨_, _, _, fresh⟩
  | transact m actions => exact .inl (transactions_transact after)
  | commit m => exact .inl (transactions_transact after)
  | lowerLive => exact .inl (transactions_transact (w := w) after)
  | turn => exact .inl (transactions_transact (w := w) after)
  | _ => exact .inl (kept after)

/-- No transaction is ever removed. -/
theorem Step.transaction_forth (s : w.Step l w') (before : w.transactions[n]? = some t) :
    ∃ actions, w'.transactions[n]? = some (t.runAt w.now actions) := by
  have moved (m : Nat) (actions : List Transaction.Action) : ∃ actions',
      (w.transact m actions).transactions[n]? = some (t.runAt w.now actions') := by
    by_cases same : m = n
    · subst same
      exact ⟨actions, by simp [World.transact, modifyTransaction, before]⟩
    · exact ⟨[], by simpa [World.transact, modifyTransaction, same] using before⟩
  have opened (localId : String) (options : TransactionOptions) :
      (w.openTransaction localId options).transactions[n]? = some (t.runAt w.now []) := by
    have lt := (List.getElem?_eq_some_iff.mp before).1
    rw [World.openTransaction, List.getElem?_append_left lt, before]
    rfl
  cases s with
  | openTransaction localId options => exact ⟨[], opened localId options⟩
  | @found _ _ _ _ y => exact ⟨[], opened y.transactionId y.options⟩
  | transact m actions | commit m => exact moved m _
  | lowerLive | turn => exact moved _ _
  | _ => exact ⟨[], before⟩

theorem Step.now_le (s : w.Step l w') : w.now ≤ w'.now := by
  have same : w.now ≤ w.now := Nat.le_refl w.now.nanos
  cases s with
  | tick nanos => exact Nat.le_add_right w.now.nanos nanos
  | _ => exact same

/-- Every step keeps every transaction on a run. -/
theorem Lived.step (h : w.Lived) (s : w.Step l w') : w'.Lived := by
  intro n t' after
  rcases s.transaction_cases after with
    ⟨t, before, actions, rfl⟩ | ⟨localId, createdAt, options, rfl⟩
  · obtain ⟨options, reachable⟩ := h before
    exact ⟨options, .tick (reachable.runAt actions) _ s.now_le⟩
  · exact ⟨options, .tick (.create localId n createdAt w.now) _ s.now_le⟩

theorem Lived.sound (h : w.Lived) (transaction : w.transactions[n]? = some t) : t.Sound := by
  obtain ⟨options, reachable⟩ := h transaction
  exact reachable.sound

end World

end NestedWork
