import NestedWork.Proofs.Transaction.Abort
import NestedWork.Proofs.Transaction.Decision

/-!
# The first cause of an abort

A transaction that is aborted keeps its reason, and every commit and every enlistment that fails
from then on gives that reason. There is one exception. A commit that is asking the participants
when the abort comes, and hears a refusal after it, puts the refusal in the place of the reason.
A commit that hears no refusal leaves the reason of the abort where it is.

## Implementation notes

The refusals that take the place of a reason are read off the run, like the calls that enter the
prepare phase. Such a refusal needs a commit that has the participants in its hands, and an aborted
transaction is never handed to another one. So there is at most one.
-/

namespace NestedWork.Transaction

variable {t t₁ t' : Transaction} {now : Instant} {events : List Event} {i : Nat} {p p' : Point}
  {a : Action} {cause : AbortReason}

/-! ## Refusals that come after an abort -/

/-- The refusal that a step puts in the place of the reason for which a transaction was aborted. -/
def overruling? (t : Transaction) : Action → Option AbortReason
  | .advance i =>
    match t.point? i with
    | some (.voted _ (some why)) => if t.status = .aborted then some (.votedNo why) else none
    | _ => none
  | _ => none

/-- The refusals that a run puts in the place of earlier reasons, in their order. -/
def overrulings (t : Transaction) : List (Instant × Action) → List AbortReason
  | [] => []
  | s :: rest => (t.overruling? s.2).toList ++ (t.perform s.1 s.2).overrulings rest

theorem overrulings_append (t : Transaction) (before after : List (Instant × Action)) :
    t.overrulings (before ++ after) = t.overrulings before ++ (t.run before).overrulings after := by
  induction before generalizing t with
  | nil => rfl
  | cons s rest ih => simp only [List.cons_append, overrulings, run_cons, ih, List.append_assoc]

theorem overruling?_eq_some {reason : AbortReason} : t.overruling? a = some reason ↔
    ∃ i members why, a = .advance i ∧ t.point? i = some (.voted members (some why)) ∧
      t.status = .aborted ∧ reason = .votedNo why := by
  constructor
  · intro overruled
    unfold overruling? at overruled
    split at overruled
    next i =>
      split at overruled
      next members why reached =>
        obtain ⟨aborted, same⟩ := Option.ite_none_right_eq_some.mp overruled
        exact ⟨i, members, why, rfl, reached, aborted, (Option.some.inj same).symm⟩
      next => cases overruled
    next => cases overruled
  · rintro ⟨i, members, why, rfl, reached, aborted, rfl⟩
    simp [overruling?, reached, aborted]

/-- Once a transaction is aborted, a step keeps the reason unless a commit moves that has heard a
refusal. -/
theorem Step.abortReason_cases (s : t.Step now events t') (aborted : t.status = .aborted) :
    t'.abortReason = t.abortReason ∨
      ∃ i members why, t.point? i = some (.voted members (some why)) ∧
        t'.point? i ≠ some (.voted members (some why)) ∧
        t'.abortReason = some (.votedNo why) := by
  have closed : t.status ≠ .active := by simp [aborted]
  cases s with
  | stay | enlist => exact .inl rfl
  | issue mode =>
      rw [issue_eq]
      exact .inl rfl
  | begin enters =>
      cases enters with
      | strike _ active | forsake _ _ active => exact absurd active closed
      | release =>
          rw [discount_eq]
          exact .inl rfl
      | _ => exact .inl rfl
  | @move i p p' votes t₁ reached moves =>
      have arrived := moves.point?_eq reached
      cases moves with
      | strikeOutstanding active | strikeLate active => exact absurd active closed
      | strikeRefused members why =>
          refine .inr ⟨i, members, why, reached, ?_, rfl⟩
          rw [arrived]
          simp [strike]
      | _ => exact .inl rfl

/-- An aborted transaction has the reason that it had, or the refusal that the step puts in its
place. -/
theorem abortReason_perform (aborted : t.status = .aborted) (now : Instant) (a : Action) :
    (t.perform now a).abortReason = (t.overruling? a).or t.abortReason := by
  cases overruled : t.overruling? a with
  | some reason =>
      obtain ⟨i, members, why, rfl, reached, -, rfl⟩ := overruling?_eq_some.mp overruled
      simp [perform, advance, reached, decideFate, strike, moveTo]
  | none =>
      rcases (t.step_perform now a).abortReason_cases aborted with
        kept | ⟨i, members, why, reached, moved, -⟩
      · exact kept
      · -- The commit moved by its own turn, so the step did overrule the reason.
        obtain rfl := eq_advance_of_voted reached moved
        rw [overruling?_eq_some.mpr ⟨i, members, why, rfl, reached, aborted, rfl⟩] at overruled
        cases overruled

/-- After a run, an aborted transaction has the reason that it had, or the last refusal that was put
in its place. -/
theorem abortReason_run (aborted : t.status = .aborted) (reason : t.abortReason = some cause)
    (steps : List (Instant × Action)) :
    (t.run steps).abortReason = some ((t.overrulings steps).getLastD cause) := by
  induction steps generalizing t cause with
  | nil => simpa [overrulings] using reason
  | cons s rest ih =>
      have next := abortReason_perform aborted s.1 s.2
      have still := (t.step_perform s.1 s.2).aborted aborted
      rw [reason] at next
      cases overruled : t.overruling? s.2 with
      | none =>
          rw [overruled, Option.none_or] at next
          simpa [overrulings, overruled] using ih still next
      | some why =>
          rw [overruled, Option.some_or] at next
          simp only [overrulings, overruled, Option.toList_some, List.singleton_append, run_cons,
            List.getLastD_cons]
          exact ih still next

/-! ## There is at most one -/

/-- A closed transaction that no commit has in its hands is not handed to another one. -/
theorem Step.idle (s : t.Step now events t') (closed : t.status ≠ .active)
    (idle : t.committing = false) : t'.committing = false := by
  cases s with
  | stay | enlist => exact idle
  | issue mode =>
      rw [issue_eq]
      exact idle
  | begin enters =>
      cases enters with
      | release =>
          rw [discount_eq]
          exact idle
      | forsake => simpa [strike, discount_eq] using idle
      | _ => exact idle
  | move reached moves =>
      cases moves with
      | gather active => exact absurd active closed
      | strikeRefused | concede | decide => rfl
      | _ => exact idle

/-- Only a commit that has the participants in its hands overrules a reason, and lets go of them. -/
theorem Consistent.committing_of_overruling? (h : t.Consistent) {reason : AbortReason}
    (overruled : t.overruling? a = some reason) :
    t.committing = true ∧ (t.perform now a).committing = false := by
  obtain ⟨i, members, why, rfl, reached, -, rfl⟩ := overruling?_eq_some.mp overruled
  refine ⟨(h.of_isPreparing reached rfl).1, ?_⟩
  simp [perform, advance, reached, decideFate, strike, moveTo]

/-- No reason is overruled where no commit has the participants in its hands. -/
theorem Consistent.overrulings_eq_nil (h : t.Consistent) (closed : t.status ≠ .active)
    (idle : t.committing = false) (steps : List (Instant × Action)) :
    t.overrulings steps = [] := by
  induction steps generalizing t with
  | nil => rfl
  | cons s rest ih =>
      have next := t.step_perform s.1 s.2
      have none : t.overruling? s.2 = none := by
        cases overruled : t.overruling? s.2 with
        | none => rfl
        | some reason =>
            obtain ⟨busy, -⟩ : t.committing = true ∧ (t.perform s.1 s.2).committing = false :=
              h.committing_of_overruling? overruled
            rw [idle] at busy
            cases busy
      simpa [overrulings, none] using ih (h.step next) (next.closed h closed)
        (next.idle closed idle)

/-- In a run at most one reason is overruled. -/
theorem Consistent.length_overrulings_le (h : t.Consistent) (steps : List (Instant × Action)) :
    (t.overrulings steps).length ≤ 1 := by
  induction steps generalizing t with
  | nil => simp [overrulings]
  | cons s rest ih =>
      have next := t.step_perform s.1 s.2
      cases overruled : t.overruling? s.2 with
      | none => simpa [overrulings, overruled] using ih (h.step next)
      | some reason =>
          obtain ⟨-, -, -, -, -, aborted, -⟩ := overruling?_eq_some.mp overruled
          have closed : t.status ≠ .active := by simp [aborted]
          have none := (h.step next).overrulings_eq_nil (next.closed h closed)
            (h.committing_of_overruling? overruled).2 rest
          simp [overrulings, overruled, none]

/-! ## What the commits report -/

theorem point?_of_getElem? {c : Call} (call : t.calls[i]? = some c) :
    t.point? i = some c.point := by
  rw [point?, call, Option.map_some]

/-- A call that fails once its transaction is aborted was going to fail before the step, or reports
the reason that the transaction has after it. -/
theorem Step.blames (s : t.Step now events t') (h : t.Reasoned) (aborted : t'.status = .aborted)
    {e : Aborted} (reached : t'.point? i = some p') (ending : p'.ending? = some (.error e)) :
    (∃ p, t.point? i = some p ∧ p.ending? = some (.error e)) ∨
      t'.abortReason = some e.reason := by
  rcases s.point?_cases reached with
    ⟨p, there, rfl | rfl⟩ | ⟨p, votes, t₁, there, moves, rfl⟩ | ⟨purpose, t₁, -, enters, rfl⟩
  · exact .inl ⟨p', there, ending⟩
  · exact .inl ⟨p, there, by simpa using ending⟩
  · cases moves with
    | wakeToTell | tellNobody | tell | toldLast | tellNext => exact .inl ⟨_, there, ending⟩
    | strikeOutstanding | strikeLate | strikeRefused =>
        obtain rfl := Except.error.inj (Option.some.inj ending)
        exact .inr rfl
    | refuse =>
        -- The commit came too late and found the reason that is still there.
        have before : t.status = .aborted := aborted
        obtain ⟨reason, shown⟩ := Option.isSome_iff_exists.mp (h.reason.mpr before)
        obtain rfl := Except.error.inj (Option.some.inj ending)
        exact .inr (by simp [refusal, before, shown, moveTo])
    | concede =>
        have before : t.status = .aborted := aborted
        obtain ⟨reason, shown⟩ := Option.isSome_iff_exists.mp (h.reason.mpr before)
        obtain rfl := Except.error.inj (Option.some.inj ending)
        exact .inr (by simp [shown, moveTo])
    | _ => cases ending
  · cases enters with
    | strike | forsake =>
        obtain rfl := Except.error.inj (Option.some.inj ending)
        simp [strike, discount_eq]
    | _ => cases ending

/-- A call that fails in the course of a run on an aborted transaction reports the reason that the
transaction had, or a refusal that was put in its place. -/
theorem mem_overrulings_of_ending? (h : t.Consistent) (told : t.Explained) (shown : t.Reasoned)
    (aborted : t.status = .aborted) (reason : t.abortReason = some cause)
    {steps : List (Instant × Action)} {e : Aborted} (reached : (t.run steps).point? i = some p')
    (ending : p'.ending? = some (.error e)) :
    (∃ p, t.point? i = some p ∧ p.ending? = some (.error e)) ∨
      e.reason ∈ cause :: t.overrulings steps := by
  induction steps generalizing t cause with
  | nil => exact .inl ⟨p', reached, ending⟩
  | cons s rest ih =>
      have next := t.step_perform s.1 s.2
      have still := next.aborted aborted
      have changed := abortReason_perform aborted s.1 s.2
      rw [reason] at changed
      obtain ⟨latest, current, among⟩ : ∃ latest, (t.perform s.1 s.2).abortReason = some latest ∧
          latest ∈ cause :: (t.overruling? s.2).toList := by
        cases overruled : t.overruling? s.2 with
        | none => exact ⟨cause, by simpa [overruled] using changed, by simp⟩
        | some why => exact ⟨why, by simpa [overruled] using changed, by simp⟩
      have later := ih (h.step next) (told.step h next) (shown.step h told next) still current
        reached
      simp only [overrulings, List.mem_cons, List.mem_append] at later among ⊢
      rcases later with ⟨p, there, before⟩ | same | mem
      · rcases next.blames shown still there before with early | here
        · exact .inl early
        · obtain rfl := Option.some.inj (current.symm.trans here)
          tauto
      · rw [same]
        tauto
      · tauto

/-- Every commit that fails on an aborted transaction reports the reason that it shows. -/
def Unanimous (t : Transaction) : Prop :=
  t.status = .aborted → ∀ (i : Nat) (c : Call) (e : Aborted), t.calls[i]? = some c →
    c.purpose = .commit → c.point.ending? = some (.error e) → t.abortReason = some e.reason

/-- A step that overrules no reason keeps the commits unanimous. -/
theorem Unanimous.perform (u : t.Unanimous) (h : t.Consistent) (told : t.Explained)
    (shown : t.Reasoned) (none : t.overruling? a = none) : (t.perform now a).Unanimous := by
  intro aborted i c' e call commit ending
  have next := t.step_perform now a
  rcases next.blames shown aborted (point?_of_getElem? call) ending with
    ⟨p, there, before⟩ | here
  · obtain ⟨c, hc, rfl⟩ := Option.map_eq_some_iff.mp there
    have commit' : c.purpose = .commit := by
      obtain ⟨d, hd, same⟩ := t.exists_call_run [(now, a)] hc
      obtain rfl : d = c' := Option.some.inj (hd.symm.trans call)
      exact same.symm.trans commit
    -- It was going to fail before, so the transaction was closed, and has not committed.
    have closed := (told c (List.mem_of_getElem? hc) commit' _ before).not_active
    have aborted' : t.status = .aborted := by
      refine (h.aborted_or_committed closed).resolve_right fun committed => ?_
      rw [next.committed h committed] at aborted
      cases aborted
    rw [abortReason_perform aborted', none, Option.none_or]
    exact u aborted' i c e hc commit' before
  · exact here

/-- The commits stay unanimous in a run that overrules no reason. -/
theorem Unanimous.run (u : t.Unanimous) (h : t.Consistent) (told : t.Explained)
    (shown : t.Reasoned) {steps : List (Instant × Action)} (none : t.overrulings steps = []) :
    (t.run steps).Unanimous := by
  induction steps generalizing t with
  | nil => exact u
  | cons s rest ih =>
      have next := t.step_perform s.1 s.2
      obtain ⟨first, others⟩ := List.append_eq_nil_iff.mp none
      exact ih (u.perform h told shown (Option.toList_eq_nil_iff.mp first)) (h.step next)
        (told.step h next) (shown.step h told next) others

/-! ## All together -/

/-- From the moment at which a transaction has a reason for its abort, at most one refusal takes the
place of that reason, and none does unless a commit was asking the participants at that moment. The
transaction shows the reason, or the refusal that has taken its place. An enlistment fails with what
the transaction shows. A commit that fails reports the reason if nothing was ever overruled; in any
case, if its failure was not settled by then, it reports the reason or what took its place. -/
theorem first_cause_stands (localId : String) (sequence : Nat) (createdAt : Calendar.Timestamp)
    (started : Instant) (options : TransactionOptions) (before after : List (Instant × Action))
    (cause : AbortReason) :
    let fresh := create localId sequence createdAt started options
    let t := fresh.run before
    let t' := t.run after
    t.abortReason = some cause →
      (t.overrulings after).length ≤ 1 ∧
      (t.committing = false → t.overrulings after = []) ∧
      t'.abortReason = some ((t.overrulings after).getLastD cause) ∧
      (∀ participant,
        t'.enlist participant = .error ⟨localId, (t.overrulings after).getLastD cause⟩) ∧
      ∀ i c e, t'.calls[i]? = some c → c.purpose = .commit → t'.result? i = some (.error e) →
        (fresh.overrulings (before ++ after) = [] → e.reason = cause) ∧
        ((∀ p, t.point? i = some p → p.ending? = none) →
          e.reason ∈ cause :: t.overrulings after) := by
  intro fresh t t' reason
  have consistent : t.Consistent := consistent_run localId sequence createdAt started options before
  have explained : t.Explained := explained_run localId sequence createdAt started options before
  have reasoned : t.Reasoned := reasoned_run localId sequence createdAt started options before
  have aborted : t.status = .aborted := reasoned.reason.mp (by simp [reason])
  have still : t'.status = .aborted := run_aborted aborted after
  have shown := abortReason_run aborted reason after
  have named : t'.localId = localId := (localId_run t after).trans (localId_run fresh before)
  refine ⟨consistent.length_overrulings_le after,
    fun idle => consistent.overrulings_eq_nil (by simp [aborted]) idle after, shown, ?_, ?_⟩
  · intro participant
    have refused : t'.refusal = ⟨localId, (t.overrulings after).getLastD cause⟩ := by
      rw [refusal, named, if_neg (by simp [still]), shown, Option.getD_some]
    rw [enlist, if_pos (.inl (by simp [still])), refused]
  · intro i c e call commit returned
    have ending := ending?_of_result? call returned
    refine ⟨fun none => ?_, fun open' => ?_⟩
    · have unanimous : (fresh.run (before ++ after)).Unanimous :=
        Unanimous.run (by simp [Unanimous, create])
          (consistent_create localId sequence createdAt started options)
          (by simp [Explained, create])
          (reasoned_create localId sequence createdAt started options) none
      rw [run_append] at unanimous
      have agreed := unanimous still i c e call commit ending
      rw [overrulings_append] at none
      have later : t.overrulings after = [] := (List.append_eq_nil_iff.mp none).2
      rw [shown, later] at agreed
      exact (Option.some.inj agreed).symm
    · rcases mem_overrulings_of_ending? consistent explained reasoned aborted reason
        (point?_of_getElem? call) ending with ⟨p, there, early⟩ | mem
      · rw [open' p there] at early
        cases early
      · exact mem

/-- A commit hears a refusal from the participant that it was asking when the transaction was rolled
back. -/
def refusedLate : List (Instant × Action) :=
  [(⟨0⟩, .vote 0 (.refused "no")), (⟨0⟩, .advance 0), (⟨0⟩, .advance 0), (⟨0⟩, .advance 0),
    (⟨0⟩, .acknowledge 0)]

/-- The refusal that comes after a rollback takes its place: the transaction shows it, and the
commit reports it. -/
theorem first_cause_stands_refusedLate :
    let fresh := create "id" 0 ⟨0, 0⟩ ⟨0⟩ .default
    let t := fresh.run (preparing ++ [(⟨0⟩, .begin (.abort (.rolledBack "stop")))])
    let t' := t.run refusedLate
    (t.abortReason = some (.rolledBack "stop") ∧ t.overrulings refusedLate = [.votedNo "no"]) ∧
      t'.abortReason = some (.votedNo "no") ∧
      t'.result? 0 = some (.error ⟨"id", .votedNo "no"⟩) ∧
      ∀ participant, t'.enlist participant = .error ⟨"id", .votedNo "no"⟩ := by
  intro fresh t t'
  have reason : t.abortReason = some (.rolledBack "stop") := by decide
  have overruled : t.overrulings refusedLate = [.votedNo "no"] := by decide
  have returned : t'.result? 0 = some (.error ⟨"id", .votedNo "no"⟩) := by decide
  have all := first_cause_stands "id" 0 ⟨0, 0⟩ ⟨0⟩ .default
    (preparing ++ [(⟨0⟩, .begin (.abort (.rolledBack "stop")))]) refusedLate (.rolledBack "stop")
  obtain ⟨-, -, shown, enlisting, -⟩ := all reason
  change t'.abortReason = some ((t.overrulings refusedLate).getLastD _) at shown
  change ∀ participant, t'.enlist participant =
    .error ⟨"id", (t.overrulings refusedLate).getLastD _⟩ at enlisting
  rw [overruled] at shown enlisting
  exact ⟨⟨reason, overruled⟩, shown, returned, enlisting⟩

end NestedWork.Transaction
