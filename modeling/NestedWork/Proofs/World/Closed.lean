import NestedWork.Proofs.World.Lives

/-!
# Commits in a transaction whose fate is decided

Once a transaction is no longer active, what a commit still has to do in it is done at once. Giving
up a scope, a dependent or the handle of the owner returns without waiting for anybody, and it
leaves the fate of the transaction and the reason for it alone.

## Implementation notes

Only a commit that was asking the participants when the fate was decided may still change the reason
of an abort. Calls for other purposes are settled as soon as they are begun.
-/

namespace NestedWork

namespace Transaction

variable {t t₁ : Transaction} {now : Instant} {p p' : Point} {i : Nat} {r : Except Aborted Unit}
  {purpose : Purpose}

/-- What has become of a transaction: its status, and the reason of its abort. -/
def verdict (t : Transaction) : Status × Option AbortReason := (t.status, t.abortReason)

/-- A call that is settled decides nothing any more. -/
theorem Moves.verdict_eq {votes : List Event} (moves : t.Moves now p votes t₁ p')
    (ending : p.ending? = some r) : t₁.verdict = t.verdict ∧ p'.ending? = some r := by
  cases moves with
  | wake | wakeToTell | tellNobody | tell | toldLast | tellNext => exact ⟨rfl, ending⟩
  | _ => cases ending

theorem verdict_advances (n : Nat) (reached : t.point? i = some p)
    (ending : p.ending? = some r) :
    (t.runAt now (List.replicate n (.advance i))).verdict = t.verdict := by
  induction n generalizing t p with
  | zero => rfl
  | succ n ih =>
      rw [List.replicate_succ, runAt_cons]
      by_cases ready : (Action.advance i).serves i p = true
      · obtain ⟨votes, t₁, p', moves, eq, -⟩ := exists_moves t now reached ready
        obtain ⟨same, settled⟩ := moves.verdict_eq ending
        rw [eq, ih (moves.point?_eq reached) settled]
        exact same
      · have idle := (perform_eq_self t now (a := .advance i) rfl fun q there => by
          obtain rfl := Option.some.inj (reached.symm.trans there)
          simpa using ready).1
        rw [idle, ih reached ending]

/-- A call other than a commit is settled as soon as it is begun. -/
theorem Enters.exists_ending (enters : t.Enters purpose t₁ p) (other : purpose ≠ .commit) :
    ∃ r, p.ending? = some r := by
  cases enters with
  | commit => exact absurd rfl other
  | _ => exact ⟨_, rfl⟩

/-- A call that is begun on a closed transaction leaves its fate alone. -/
theorem Enters.verdict_eq (enters : t.Enters purpose t₁ p) (closed : t.status ≠ .active) :
    t₁.verdict = t.verdict := by
  cases enters with
  | strike _ active | forsake _ _ active => exact absurd active closed
  | release => simp only [discount_eq, verdict]
  | _ => rfl

/-- A call other than a commit has nobody to wait for on a closed transaction. -/
theorem Enters.isMild (enters : t.Enters purpose t₁ p) (closed : t.status ≠ .active)
    (other : purpose ≠ .commit) : Call.isMild ⟨purpose, p⟩ := by
  cases enters with
  | commit => exact absurd rfl other
  | strike _ active | forsake _ _ active => exact absurd active closed
  | release | shorten => exact .inl rfl
  | late | spare | keep => exact .inr ⟨_, rfl⟩

section Begin

variable (t now)

theorem point?_begin (purpose : Purpose) :
    (t.begin purpose).point? t.calls.length = some (t.enter purpose).2 := by
  simp [begin, point?, (enters_enter t purpose).calls_eq]

/-- What a call does to the fate of a transaction it does as soon as it is begun. -/
theorem verdict_begin (other : purpose ≠ .commit) :
    (t.runAt now (.begin purpose :: strides t.calls.length)).verdict =
      (t.enter purpose).1.verdict := by
  obtain ⟨r, ending⟩ := (enters_enter t purpose).exists_ending other
  have begun : (t.begin purpose).verdict = (t.enter purpose).1.verdict := rfl
  rw [runAt_cons, ← begun]
  exact verdict_advances stride (t.point?_begin purpose) ending

/-- On a closed transaction, a call other than a commit returns at once. -/
theorem exists_result?_begin (closed : t.status ≠ .active) (other : purpose ≠ .commit) :
    ∃ r, (t.runAt now (.begin purpose :: strides t.calls.length)).result? t.calls.length =
      some r := by
  have first : ∃ r, ((t.begin purpose).perform now
      (.advance t.calls.length)).result? t.calls.length = some r := by
    rcases (enters_enter t purpose).isMild closed other with eq | ⟨r, eq⟩
    · have reached := (t.point?_begin purpose).trans (congrArg some eq)
      have wakes : (t.begin purpose).Moves now (.waking none) [] (t.begin purpose).wakeAll
        (.finished (.ok ())) := .wake
      refine ⟨.ok (), result?_eq_some.mpr ?_⟩
      simpa [perform, advance, reached] using wakes.point?_eq reached
    · have reached := (t.point?_begin purpose).trans (congrArg some eq)
      exact ⟨r, result?_eq_some.mpr (by simp [perform, advance, reached])⟩
  obtain ⟨r, returned⟩ := first
  refine ⟨r, ?_⟩
  rw [runAt_cons, strides, stride, List.replicate_succ, runAt_cons]
  exact result?_runAt returned _

end Begin

end Transaction

namespace World

variable {w w₁ w' : World} {c u n thread : Nat} {scope : Scope} {result : Response Unit}
  {purpose : Purpose} {x : UnitOfWork} {s : Stage}

/-- What has become of a transaction. -/
def verdictOf? (w : World) (n : Nat) : Option (Status × Option AbortReason) :=
  (w.transactions[n]?).map Transaction.verdict

/-- The fate of a transaction is decided. -/
def IsDecided (w : World) (n : Nat) : Prop :=
  ∃ t, w.transactions[n]? = some t ∧ t.status ≠ .active

theorem isDecided_iff :
    w.IsDecided n ↔ ∃ verdict, w.verdictOf? n = some verdict ∧ verdict.1 ≠ .active := by
  simp only [IsDecided, verdictOf?, Option.map_eq_some_iff]
  constructor
  · rintro ⟨t, transaction, closed⟩
    exact ⟨_, ⟨t, transaction, rfl⟩, closed⟩
  · rintro ⟨_, ⟨t, transaction, rfl⟩, closed⟩
    exact ⟨t, transaction, closed⟩

theorem IsDecided.of_verdict (h : w.IsDecided n) (same : w'.verdictOf? n = w.verdictOf? n) :
    w'.IsDecided n := by
  rw [isDecided_iff] at h ⊢
  rwa [same]

/-! ## Calls -/

/-- What a call does to the fate of its transaction. -/
theorem verdictOf?_call {t : Transaction} (transaction : w.transactions[n]? = some t)
    (other : purpose ≠ .commit) :
    (w.call n purpose).1.verdictOf? n = some (t.enter purpose).1.verdict := by
  have last : w.callsOn n = t.calls.length := by simp [callsOn, transaction]
  rw [call_eq, callSteps, last, ← t.verdict_begin w.now other]
  simp [verdictOf?, transact, modifyTransaction, transaction]

/-- A call on a transaction whose fate is decided leaves that alone and returns at once. -/
theorem call_of_isDecided (h : w.IsDecided n) (other : purpose ≠ .commit) :
    (w.call n purpose).1.verdictOf? n = w.verdictOf? n ∧
      ∃ r, (w.call n purpose).1.result? (w.call n purpose).2 = some r := by
  obtain ⟨t, transaction, closed⟩ := h
  constructor
  · rw [verdictOf?_call transaction other,
      (Transaction.enters_enter t purpose).verdict_eq closed, verdictOf?, transaction]
    rfl
  · obtain ⟨r, returned⟩ := t.exists_result?_begin w.now closed other
    have last : w.callsOn n = t.calls.length := by simp [callsOn, transaction]
    rw [call_eq, callSteps, last]
    exact ⟨r, by simpa [World.result?, transact, modifyTransaction, transaction] using returned⟩

/-! ## The end of a commit -/

/-- A commit comes to its end, and the fate of its transaction is as it was. -/
structure Ends (w w' : World) (c n : Nat) (result : Response Unit) : Prop where
  verdict : w'.verdictOf? n = w.verdictOf? n
  returned : ∀ {u thread : Nat} {s : Stage}, w.operations[c]? = some ⟨u, thread, s⟩ →
    w'.operations[c]? = some ⟨u, thread, .done (.commit (.ok result))⟩

theorem Ends.of_eq (h : w₁.Ends w' c n result) (operations : w₁.operations = w.operations)
    (verdict : w₁.verdictOf? n = w.verdictOf? n) : w.Ends w' c n result where
  verdict := h.verdict.trans verdict
  returned := by
    rw [← operations]
    exact h.returned

theorem ends_finishCommit (w : World) (c u n : Nat) (result : Response Unit) :
    w.Ends (w.finishCommit c u result) c n result where
  verdict := rfl
  returned := by
    intro v thread s running
    simp [finishCommit, moveTo, modifyUnit, running]

theorem ends_yieldHandle (h : w.IsDecided scope.transaction) (c u : Nat)
    (result : Response Unit) :
    w.Ends (w.yieldHandle c u scope result) c scope.transaction result := by
  unfold yieldHandle
  split
  next =>
    have given : (w.modifyUnit u fun x => { x with handles := x.handles - 1 }).IsDecided
      scope.transaction := h
    refine @Ends.of_eq w (w.modifyUnit u fun x => { x with handles := x.handles - 1 }) _ _ _ _ ?_
      rfl rfl
    dsimp only
    split
    next =>
      obtain ⟨same, r, returned⟩ := call_of_isDecided given
        (show Purpose.abort .ownerReleased ≠ .commit by simp)
      rw [returned]
      exact (ends_finishCommit _ c u _ result).of_eq rfl same
    next => exact ends_finishCommit ..
  next => exact ends_finishCommit ..

theorem ends_discardDependent (h : w.IsDecided scope.transaction) (c u : Nat)
    (e : ResponseError) :
    w.Ends (w.discardDependent c u scope e) c scope.transaction (.error e) := by
  unfold discardDependent
  split
  next => exact ends_yieldHandle h c u _
  next k _ =>
    obtain ⟨same, r, returned⟩ := call_of_isDecided h
      (show Purpose.release k false ≠ .commit by simp)
    dsimp only
    rw [returned]
    exact (ends_yieldHandle (h.of_verdict same) c u _).of_eq rfl same

theorem ends_transactionReturned (h : w.IsDecided scope.transaction) (c u : Nat)
    (r : Except Aborted Unit) :
    ∃ result, w.Ends (w.transactionReturned c u scope r) c scope.transaction result := by
  cases r with
  | ok => exact ⟨_, ends_yieldHandle h c u _⟩
  | error cause =>
      exact ⟨_, (ends_yieldHandle (w := w.modifyUnit u fun x => { x with status := .aborted })
        h c u _).of_eq rfl rfl⟩

/-- A commit that waits for a call goes on to its end once the call has returned, if the fate of the
transaction that it works in is decided. -/
theorem ends_resume {i : Inner} {r : Except Aborted Unit}
    (running : w.operations[c]? = some ⟨u, thread, s⟩) (busy : s.isRunning = true)
    (waits : s.inner? = some i) (returned : w.result? i = some r)
    (decided : ∀ scope, s.scope? = some scope → w.IsDecided scope.transaction) :
    ∃ result, (w.resume c).operations[c]? = some ⟨u, thread, .done (.commit (.ok result))⟩ := by
  simp only [resume, running]
  cases s with
  | leaving scope e =>
      cases waits
      dsimp only
      rw [returned]
      exact ⟨_, (ends_discardDependent (decided scope rfl) c u e).returned running⟩
  | discarding scope e =>
      cases waits
      dsimp only
      rw [returned]
      exact ⟨_, (ends_yieldHandle (decided scope rfl) c u _).returned running⟩
  | completing scope =>
      cases waits
      dsimp only
      rw [returned]
      obtain ⟨result, ends⟩ := ends_transactionReturned (decided scope rfl) c u r
      exact ⟨result, ends.returned running⟩
  | yielding result =>
      cases waits
      dsimp only
      rw [returned]
      exact ⟨result, (ends_finishCommit w c u 0 result).returned running⟩
  | surrender => cases busy
  | _ => cases waits

/-! ## The failure of a commit -/

/-- The failure of the work aborts an active transaction, since its scope was not completed.
Whatever else the commit then gives up comes too late to be the reason. -/
theorem verdictOf?_workFailed {t : Transaction}
    (transaction : w.transactions[scope.transaction]? = some t) (active : t.status = .active)
    (c u : Nat) (e : ResponseError) :
    (w.workFailed c u scope e).verdictOf? scope.transaction =
      some (.aborted, some .scopeNotCompleted) := by
  have struck : ((w.modifyUnit u fun x => { x with status := .aborted }).call scope.transaction
      (.abort .scopeNotCompleted)).1.verdictOf? scope.transaction =
        some (.aborted, some .scopeNotCompleted) := by
    refine (verdictOf?_call transaction (by simp)).trans ?_
    simp [Transaction.enter, Transaction.abortIfActive, active, Transaction.strike,
      Transaction.verdict]
  have decided := isDecided_iff.mpr ⟨_, struck, by simp⟩
  unfold workFailed
  dsimp only
  split
  · exact (ends_discardDependent decided c u e).verdict.trans struck
  · exact struck

end World

end NestedWork
