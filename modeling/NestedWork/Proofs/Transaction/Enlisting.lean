import NestedWork.Proofs.Transaction.Cause
import NestedWork.Proofs.Transaction.Wake

/-!
# Enlistments that are refused

An enlistment is refused for two different causes: the transaction is closed, or a commit has the
participants in its hands. The refusal of a closed transaction names what became of it. The refusal
during the prepare phase says that the transaction is not active, which it still is, and its commit
may succeed after that.

## Implementation notes

Whether a commit in its prepare phase may still succeed is settled by the votes that it has heard. A
commit that has heard no refusal is taken to its decision by the consent of the participants that it
has not heard. A commit that has heard one cannot be moved by anybody else, and its own turn aborts
the transaction.
-/

namespace NestedWork

/-- A commit that has heard a refusal. -/
def Point.isRefused : Point → Bool
  | voted _ (some _) => true
  | _ => false

namespace Transaction

variable {t : Transaction} {now : Instant} {i : Nat}

/-! ## Commits that may still succeed -/

/-- The decision on the votes of participants that all consent commits an active transaction. -/
theorem status_decide {members : List Enlistment} (active : t.status = .active)
    (reached : t.point? i = some (.voted members none)) :
    (t.perform now (.advance i)).status = .committed := by
  simp [perform, advance, reached, decideFate, active, moveTo]

/-- A commit that asks the participants commits the transaction if all that it has not heard
consent. -/
theorem exists_committed_of_asking {info : Information} {asked unasked : List Enlistment}
    {current : Enlistment} (active : t.status = .active)
    (reached : t.point? i = some (.asking info asked current unasked)) (now : Instant) :
    ∃ after, (∀ s ∈ after, s.1 = now) ∧ (t.run after).status = .committed := by
  induction unasked generalizing t asked current with
  | nil =>
      have heard : t.perform now (.vote i .prepared) =
          t.moveTo i (.voted (asked ++ [current]) none) := by
        simp [perform, vote, reached]
      have voted : (t.perform now (.vote i .prepared)).point? i =
          some (.voted (asked ++ [current]) none) := by
        rw [heard, point?_moveTo, if_pos rfl, reached]
        rfl
      refine ⟨[(now, .vote i .prepared), (now, .advance i)], by simp, ?_⟩
      rw [run_cons, run_cons, run_nil]
      exact status_decide (by rw [heard]; exact active) voted
  | cons next rest ih =>
      have heard : t.perform now (.vote i .prepared) =
          t.moveTo i (.asking info (asked ++ [current]) next rest) := by
        simp [perform, vote, reached]
      have asking : (t.perform now (.vote i .prepared)).point? i =
          some (.asking info (asked ++ [current]) next rest) := by
        rw [heard, point?_moveTo, if_pos rfl, reached]
        rfl
      obtain ⟨after, same, committed⟩ := ih (by rw [heard]; exact active) asking
      exact ⟨(now, .vote i .prepared) :: after, by simpa using same, committed⟩

/-- A commit of an active transaction that has heard no refusal may still succeed, at any time. -/
theorem exists_committed {p : Point} (active : t.status = .active)
    (reached : t.point? i = some p) (preparing : p.isPreparing) (consent : p.isRefused = false)
    (now : Instant) :
    ∃ after, (∀ s ∈ after, s.1 = now) ∧ (t.run after).status = .committed := by
  cases p with
  | gathered members =>
      cases members with
      | nil =>
          have voted : (t.perform now (.advance i)).point? i = some (.voted [] none) := by
            simp [perform, advance, reached, point?_moveTo]
          have still : (t.perform now (.advance i)).status = .active := by
            simp [perform, advance, reached, moveTo, active]
          refine ⟨[(now, .advance i), (now, .advance i)], by simp, ?_⟩
          rw [run_cons, run_cons, run_nil]
          exact status_decide still voted
      | cons e rest =>
          have asking : (t.perform now (.advance i)).point? i =
              some (.asking t.information [] e rest) := by
            simp [perform, advance, reached, point?_moveTo]
          have still : (t.perform now (.advance i)).status = .active := by
            simp [perform, advance, reached, moveTo, active]
          obtain ⟨after, same, committed⟩ := exists_committed_of_asking still asking now
          exact ⟨(now, .advance i) :: after, by simpa using same, committed⟩
  | asking => exact exists_committed_of_asking active reached now
  | voted members refusal =>
      cases refusal with
      | none =>
          refine ⟨[(now, .advance i)], by simp, ?_⟩
          rw [run_cons, run_nil]
          exact status_decide active reached
      | some why => cases consent
  | _ => cases preparing

/-- A transaction whose commit has heard a refusal never commits. -/
theorem Consistent.not_committed_of_refused (h : t.Consistent) {members : List Enlistment}
    {why : String} (reached : t.point? i = some (.voted members (some why)))
    (steps : List (Instant × Action)) : (t.run steps).status ≠ .committed := by
  induction steps generalizing t with
  | nil => exact (h.of_isPreparing reached rfl).2.2
  | cons s rest ih =>
      obtain ⟨now, a⟩ := s
      have next := t.step_perform now a
      rw [run_cons]
      by_cases waits : (t.perform now a).point? i = some (.voted members (some why))
      · exact ih (h.step next) waits
      · -- The commit moved by its own turn, which is the decision.
        obtain rfl := eq_advance_of_voted reached waits
        have aborted : (t.perform now (.advance i)).status = .aborted := by
          simp [perform, advance, reached, decideFate, strike, moveTo]
        rw [run_aborted aborted rest]
        simp

/-- A transaction with a commit in its prepare phase may still commit if it is active and the
commit has heard no refusal. -/
theorem Consistent.exists_committed_iff (h : t.Consistent) {p : Point} (active : t.status = .active)
    (reached : t.point? i = some p) (preparing : p.isPreparing) :
    (∃ after, (t.run after).status = .committed) ↔ p.isRefused = false := by
  constructor
  · rintro ⟨after, committed⟩
    cases p with
    | voted members refusal =>
        cases refusal with
        | none => rfl
        | some why => exact absurd committed (h.not_committed_of_refused reached after)
    | _ => rfl
  · intro consent
    obtain ⟨after, -, committed⟩ := exists_committed active reached preparing consent ⟨0⟩
    exact ⟨after, committed⟩

/-! ## What a refused enlistment says -/

/-- An enlistment is refused with the error of a caller that is too late or too early, exactly if
the transaction is closed or a commit has the participants in its hands. -/
theorem enlist_eq_error {participant : Nat} {e : Aborted} :
    t.enlist participant = .error e ↔
      (t.status ≠ .active ∨ t.committing = true) ∧ t.refusal = e := by
  unfold enlist
  split
  next refused => simp [refused]
  next accepted => simp [accepted]

theorem isOk_enlist {participant : Nat} :
    (t.enlist participant).isOk = false ↔ t.status ≠ .active ∨ t.committing = true := by
  unfold enlist
  split
  next refused => simpa [Except.isOk, Except.toBool] using refused
  next accepted => simpa [Except.isOk, Except.toBool] using accepted

/-- The refusal of a closed transaction names its end. -/
theorem Reasoned.refusal_reason (h : t.Reasoned) (consistent : t.Consistent)
    (closed : t.status ≠ .active) :
    t.status = .committed ∧ t.refusal.reason = .alreadyCommitted ∨
      t.status = .aborted ∧ t.abortReason = some t.refusal.reason := by
  rcases consistent.aborted_or_committed closed with aborted | committed
  · obtain ⟨reason, shown⟩ := Option.isSome_iff_exists.mp (h.reason.mpr aborted)
    exact .inr ⟨aborted, by simp [refusal, aborted, shown]⟩
  · exact .inl ⟨committed, by simp [refusal, committed]⟩

/-- The refusal of an active transaction says that it is not active. -/
theorem Reasoned.refusal_active (h : t.Reasoned) (active : t.status = .active) :
    t.refusal.reason = .notActive := by
  have none : t.abortReason = none := by
    rw [← Option.not_isSome_iff_eq_none, h.reason, active]
    simp
  simp [refusal, active, none]

/-- The end of a closed transaction does not change in a run. -/
theorem Consistent.status_run (h : t.Consistent) (closed : t.status ≠ .active)
    (after : List (Instant × Action)) : (t.run after).status = t.status := by
  rcases h.aborted_or_committed closed with aborted | committed
  · rw [aborted, run_aborted aborted after]
  · rw [committed, run_committed h committed after]

/-- An enlistment is refused exactly if the transaction is closed or a commit is in its prepare
phase. The refusal of a closed transaction names its end, which is final. The refusal of an active
transaction says that it is not active. It comes from a commit in its prepare phase, and the
transaction may commit after it exactly as long as that commit has heard no participant refuse. -/
theorem refused_enlistment (localId : String) (sequence : Nat) (createdAt : Calendar.Timestamp)
    (started : Instant) (options : TransactionOptions) (steps : List (Instant × Action))
    (participant : Nat) :
    let t := (create localId sequence createdAt started options).run steps
    ((t.enlist participant).isOk = false ↔
      t.status ≠ .active ∨
        ∃ (i : Nat) (c : Call), t.calls[i]? = some c ∧ c.purpose = .commit ∧
          c.point.isPreparing) ∧
    ∀ e, t.enlist participant = .error e →
      e.localId = localId ∧
      (t.status ≠ .active →
        (t.status = .committed ∧ e.reason = .alreadyCommitted ∨
          t.status = .aborted ∧ t.abortReason = some e.reason) ∧
        ∀ after, (t.run after).status = t.status) ∧
      (t.status = .active →
        e.reason = .notActive ∧
        ∃ (i : Nat) (c : Call), t.calls[i]? = some c ∧ c.purpose = .commit ∧
          c.point.isPreparing ∧
          ((∃ after, (t.run after).status = .committed) ↔ c.point.isRefused = false)) := by
  intro t
  have consistent : t.Consistent := consistent_run localId sequence createdAt started options steps
  have reasoned : t.Reasoned := reasoned_run localId sequence createdAt started options steps
  refine ⟨?_, ?_⟩
  · rw [isOk_enlist]
    constructor
    · rintro (closed | busy)
      · exact .inl closed
      · exact .inr (consistent.exists_preparing reasoned busy)
    · rintro (closed | ⟨i, c, call, -, preparing⟩)
      · exact .inl closed
      · exact .inr (consistent.of_isPreparing (point?_of_getElem? call) preparing).1
  · intro e refused
    obtain ⟨cause, rfl⟩ := enlist_eq_error.mp refused
    refine ⟨localId_run _ steps, ?_, ?_⟩
    · intro closed
      exact ⟨reasoned.refusal_reason consistent closed, consistent.status_run closed⟩
    · intro active
      have busy : t.committing = true := cause.resolve_left (not_not_intro active)
      obtain ⟨i, c, call, commit, preparing⟩ := consistent.exists_preparing reasoned busy
      exact ⟨reasoned.refusal_active active, i, c, call, commit, preparing,
        consistent.exists_committed_iff active (point?_of_getElem? call) preparing⟩

/-- A participant that is asked to prepare tries to enlist another, is told that the transaction is
not active, and consents. The transaction commits. -/
theorem refused_enlistment_preparing :
    let fresh := create "id" 0 ⟨0, 0⟩ ⟨0⟩ .default
    let t := fresh.run preparing
    t.enlist 8 = .error ⟨"id", .notActive⟩ ∧ t.status = .active ∧
      (∃ (i : Nat) (c : Call), t.calls[i]? = some c ∧ c.purpose = .commit ∧
        c.point.isPreparing ∧
        ((∃ after, (t.run after).status = .committed) ↔ c.point.isRefused = false)) ∧
      (t.run [(⟨0⟩, .vote 0 .prepared), (⟨0⟩, .advance 0)]).status = .committed := by
  intro fresh t
  have refused : t.enlist 8 = .error ⟨"id", .notActive⟩ := by rfl
  have active : t.status = .active := by decide
  have committed : (t.run [(⟨0⟩, .vote 0 .prepared), (⟨0⟩, .advance 0)]).status = .committed := by
    decide
  obtain ⟨-, told⟩ := refused_enlistment "id" 0 ⟨0, 0⟩ ⟨0⟩ .default preparing 8
  obtain ⟨-, -, during⟩ := told _ refused
  exact ⟨refused, active, (during active).2, committed⟩

end Transaction

end NestedWork
