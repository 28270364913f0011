import NestedWork.Proofs.Transaction.Finality

/-!
# No abort is lost

An abort that comes before the decision stands: no commit succeeds after it, and nobody is told to
commit.

## Implementation notes

Once the fate is decided no call waits for another any more. Each turn of a call then brings it
nearer to its return, and the turns that are left are bounded by the participants in its hands.
-/

namespace NestedWork

namespace Point

/-- The most turns that a call takes from a point on, once the fate is decided. -/
def remaining : Point → Nat
  | finished _ => 0
  | looking | waking none => 1
  | parked _ => 2
  | telling _ _ _ untold _ => untold.length + 1
  | closing c => c.members.length + 1
  | waking (some c) => c.members.length + 2
  | voted members _ => members.length + 3
  | asking _ asked _ unasked => asked.length + 2 * unasked.length + 5
  | gathered members => 2 * members.length + 4

theorem remaining_wake_le (p : Point) : p.wake.remaining ≤ p.remaining := by
  cases p <;> simp [wake, remaining]

/-- A call with no turn left has returned. -/
theorem exists_finished {p : Point} (h : p.remaining = 0) : ∃ r, p = .finished r := by
  cases p with
  | finished r => exact ⟨r, rfl⟩
  | waking c => cases c <;> simp [remaining] at h
  | _ => simp [remaining] at h

end Point

namespace Transaction

variable {t t₁ t' : Transaction} {now : Instant} {events : List Event} {i : Nat}

/-- The most turns that one of the calls takes, once the fate is decided. -/
def remaining (t : Transaction) (i : Nat) : Nat := ((t.point? i).map Point.remaining).getD 0

/-- A step is a turn of a call. -/
def isTurn (t : Transaction) (i : Nat) (a : Action) : Bool := (t.point? i).any (a.serves i)

/-- The number of turns that a call gets in a run. -/
def turns (t : Transaction) (i : Nat) : List (Instant × Action) → Nat
  | [] => 0
  | s :: rest => (t.isTurn i s.2).toNat + (t.perform s.1 s.2).turns i rest

/-- As long as a call has not returned, some step is its turn. -/
theorem exists_isTurn {p : Point} (reached : t.point? i = some p) (running : ¬ p.isFinished) :
    ∃ a, t.isTurn i a := by
  cases p with
  | finished => exact absurd rfl running
  | parked => exact ⟨.rouse i, by simp [isTurn, reached, Action.serves]⟩
  | asking => exact ⟨.vote i .prepared, by simp [isTurn, reached, Action.serves]⟩
  | telling => exact ⟨.acknowledge i, by simp [isTurn, reached, Action.serves]⟩
  | looking | gathered | voted | waking | closing =>
      exact ⟨.advance i, by simp [isTurn, reached, Action.serves, Point.isReady]⟩

/-- Once the fate is decided, a move brings a call nearer to its return. -/
theorem Moves.remaining_lt {p p' : Point} {votes : List Event} (m : t.Moves now p votes t₁ p')
    (closed : t.status ≠ .active) : p'.remaining < p.remaining := by
  cases m with
  | strikeOutstanding active | gather active | strikeLate active | park active
  | decide _ active => exact absurd active closed
  | _ => simp [strike, Point.remaining] <;> omega

/-- A step that is not its turn leaves a call where it is, or wakes it. -/
theorem point?_perform_of_not_isTurn {p : Point} {a : Action} (reached : t.point? i = some p)
    (idle : t.isTurn i a = false) (now : Instant) :
    ∃ p', (t.perform now a).point? i = some p' ∧ (p' = p ∨ p' = p.wake) := by
  have waits : a.serves i p = false := by simpa [isTurn, reached] using idle
  cases meant : a.call? with
  | some j =>
      by_cases served : ∃ q, t.point? j = some q ∧ a.serves j q
      · obtain ⟨q, there, served⟩ := served
        have ne : j ≠ i := by
          rintro rfl
          obtain rfl : p = q := Option.some.inj (reached.symm.trans there)
          simp [waits] at served
        obtain ⟨votes, t₁, p', moves, eq, -⟩ := exists_moves t now there served
        rw [eq]
        rcases moves.point?_of_ne ne with kept | woken
        · exact ⟨p, kept.trans reached, .inl rfl⟩
        · exact ⟨p.wake, by simp [woken, reached], .inr rfl⟩
      · have same := (perform_eq_self t now meant fun q there => by
          simpa using fun h => served ⟨q, there, h⟩).1
        exact ⟨p, by rw [same, reached], .inl rfl⟩
  | none =>
      refine ⟨p, ?_, .inl rfl⟩
      obtain ⟨c, hc, rfl⟩ := Option.map_eq_some_iff.mp reached
      obtain ⟨begun, -⟩ := List.getElem?_eq_some_iff.mp hc
      cases a with
      | enlist participant =>
          simp only [perform, enlist]
          split <;> exact reached
      | issue mode =>
          simp only [perform, issue_eq]
          exact reached
      | begin purpose =>
          simp only [perform, begin, point?, (enters_enter t purpose).calls_eq]
          rw [List.getElem?_append_left begun]
          exact reached
      | advance | vote | acknowledge | rouse => cases meant

/-- A call that goes on by itself is moved by its own turn only. -/
theorem eq_advance_of_isReady {p : Point} {a : Action} (reached : t.point? i = some p)
    (ready : p.isReady = true) (moved : (t.perform now a).point? i ≠ some p) : a = .advance i := by
  have awake : p.wake = p := by
    cases p with
    | parked => cases ready
    | _ => rfl
  cases turn : t.isTurn i a with
  | true =>
      have served : a.serves i p = true := by simpa [isTurn, reached] using turn
      cases a with
      | advance j =>
          obtain ⟨rfl, -⟩ : j = i ∧ p.isReady = true := by simpa [Action.serves] using served
          rfl
      | _ => cases p <;> simp [Point.isReady, Action.serves] at ready served
  | false =>
      obtain ⟨p', still, rfl | rfl⟩ := point?_perform_of_not_isTurn reached turn now
      · exact absurd still moved
      · rw [awake] at still
        exact absurd still moved

/-- Once the fate is decided, no step takes a call away from its return, and its own turns bring
it nearer. -/
theorem remaining_perform_le (closed : t.status ≠ .active) (begun : i < t.calls.length)
    (now : Instant) (a : Action) :
    (t.isTurn i a).toNat + (t.perform now a).remaining i ≤ t.remaining i := by
  obtain ⟨p, reached⟩ : ∃ p, t.point? i = some p := by simp [point?, begun]
  cases turn : t.isTurn i a with
  | true =>
      have served : a.serves i p = true := by simpa [isTurn, reached] using turn
      obtain ⟨votes, t₁, p', moves, eq, -⟩ := exists_moves t now reached served
      have lt := moves.remaining_lt closed
      simp only [remaining, reached, eq, moves.point?_eq reached, Option.map_some,
        Option.getD_some, Bool.toNat_true]
      omega
  | false =>
      -- Nobody else moves the call, so it is where it was or has been woken.
      obtain ⟨p', reached', still⟩ := point?_perform_of_not_isTurn reached turn now
      have le : p'.remaining ≤ p.remaining := by
        rcases still with rfl | rfl
        · exact Nat.le_refl _
        · exact p.remaining_wake_le
      simp only [remaining, reached, reached', Option.map_some, Option.getD_some,
        Bool.toNat_false]
      omega

/-- Once the fate is decided, a call returns after the turns that it has left. -/
theorem remaining_run_le (h : t.Consistent) (closed : t.status ≠ .active)
    (begun : i < t.calls.length) (steps : List (Instant × Action)) :
    t.turns i steps + (t.run steps).remaining i ≤ t.remaining i := by
  induction steps generalizing t with
  | nil => simp [turns]
  | cons s rest ih =>
      have next := t.step_perform s.1 s.2
      have first := remaining_perform_le closed begun s.1 s.2
      have others := ih (h.step next) (next.closed h closed)
        (Nat.lt_of_lt_of_le begun next.length_calls_le)
      simp only [turns, run_cons]
      omega

/-! ## Aborts -/

/-- The step aborts the transaction, unless it comes too late: a rollback, a scope that is left
uncompleted, an owner that goes away, or a dependent that is given up. -/
def aborts (t : Transaction) : Action → Prop
  | .begin (.abort _) => True
  | .begin (.release k false) => ∃ d, t.dependents[k]? = some d ∧ d.released = false
  | _ => False

/-- An abort of a transaction that is not committed leaves it aborted. -/
theorem status_perform_of_aborts (h : t.Consistent) {a : Action} (abort : t.aborts a)
    (before : t.status ≠ .committed) (now : Instant) : (t.perform now a).status = .aborted := by
  by_cases active : t.status = .active
  · cases a with
    | begin purpose =>
        cases purpose with
        | abort reason => simp [perform, begin, enter, abortIfActive, active, strike]
        | release k completed =>
            cases completed with
            | false =>
                obtain ⟨d, given, out⟩ := abort
                simp [perform, begin, enter, releaseDependent, given, out, active, strike]
            | true => cases abort
        | commit | lower => cases abort
    | _ => cases abort
  · have aborted := (h.aborted_or_committed active).resolve_right before
    exact (t.step_perform now a).aborted aborted

/-- A commit of an aborted transaction that has returned has returned an error. -/
theorem Explained.exists_error (h : t.Explained) (aborted : t.status = .aborted) {c : Call}
    (hc : t.calls[i]? = some c) (commit : c.purpose = .commit) {r : Except Aborted Unit}
    (returned : t.result? i = some r) : ∃ e, r = .error e := by
  have ending : c.point.ending? = some r := by
    cases eq : c.point <;> simp_all [result?, point?, Point.ending?]
  have told := h c (List.mem_of_getElem? hc) commit r ending
  cases r with
  | ok =>
      rw [Explains, aborted] at told
      cases told
  | error e => exact ⟨e, rfl⟩

/-- An abort that comes before the decision stands. From its step on the transaction is aborted,
nobody is ever told to commit, and every commit, whenever it began, returns an error after
finitely many turns. An abort that comes after the decision changes nothing. -/
theorem abort_not_lost (localId : String) (sequence : Nat) (createdAt : Calendar.Timestamp)
    (started : Instant) (options : TransactionOptions) (before after : List (Instant × Action))
    (now : Instant) (a : Action) :
    let fresh := create localId sequence createdAt started options
    let t := fresh.run before
    let steps := before ++ (now, a) :: after
    let t' := fresh.run steps
    t.aborts a →
      (t.status = .committed → t'.status = .committed) ∧
      (t.status ≠ .committed →
        t'.status = .aborted ∧
        (∀ e, .told .commit e ∉ fresh.history steps) ∧
        ∀ i c, t'.calls[i]? = some c → c.purpose = .commit →
          (∀ r, t'.result? i = some r → ∃ e, r = .error e) ∧
          (t'.result? i = none → ∃ a, t'.isTurn i a) ∧
          ∃ n, ∀ more, n ≤ t'.turns i more → ∃ e, (t'.run more).result? i = some (.error e)) := by
  intro fresh t steps t' abort
  have consistent : t.Consistent := consistent_run localId sequence createdAt started options before
  have later : t' = t.run ((now, a) :: after) := run_append fresh before _
  refine ⟨fun committed => later ▸ run_committed consistent committed _, fun open' => ?_⟩
  have aborted : t'.status = .aborted := by
    rw [later, run_cons]
    exact run_aborted (status_perform_of_aborts consistent abort open' now) after
  have explained := explained_run localId sequence createdAt started options steps
  refine ⟨aborted, ?_, ?_⟩
  · intro e told
    have ledger := ledger_run localId sequence createdAt started options steps
    have committed : t'.status = .committed := ledger.told .commit e told
    rw [aborted] at committed
    cases committed
  · intro i c hc commit
    have begun : i < t'.calls.length := (List.getElem?_eq_some_iff.mp hc).1
    refine ⟨fun r => explained.exists_error aborted hc commit, ?_, t'.remaining i, ?_⟩
    · intro running
      apply exists_isTurn (p := c.point) (by simp [point?, hc])
      intro finished
      cases eq : c.point <;> simp_all [Point.isFinished, result?, point?]
    · intro more enough
      have closed : t'.status ≠ .active := by
        rw [aborted]
        simp
      have still := consistent_run localId sequence createdAt started options steps
      have le := remaining_run_le (t := t') still closed begun more
      -- Its turns are used up, so the call has returned.
      have used : (t'.run more).remaining i = 0 := by omega
      have same : fresh.run (steps ++ more) = t'.run more := run_append fresh steps more
      obtain ⟨c', hc', kept⟩ := t'.exists_call_run more hc
      obtain ⟨r, finished⟩ := Point.exists_finished (p := c'.point) (by
        simpa [remaining, point?, hc'] using used)
      have returned : (t'.run more).result? i = some r := by simp [result?, point?, hc', finished]
      have told := explained_run localId sequence createdAt started options (steps ++ more)
      rw [same] at told
      have closed := run_aborted aborted more
      obtain ⟨e, rfl⟩ := told.exists_error closed hc' (kept.trans commit) returned
      exact ⟨e, returned⟩

/-- A run that comes to the middle of the prepare phase of a commit. -/
def preparing : List (Instant × Action) :=
  [(⟨0⟩, .enlist 7), (⟨0⟩, .begin .commit), (⟨0⟩, .advance 0), (⟨0⟩, .advance 0)]

/-- A rollback during the prepare phase of a commit. -/
theorem abort_not_lost_preparing :
    let fresh := create "" 0 ⟨0, 0⟩ ⟨0⟩ .default
    let steps := preparing ++
      (⟨0⟩, .begin (.abort (.rolledBack "stop"))) :: [(⟨0⟩, .vote 0 .prepared)]
    let t' := fresh.run steps
    (((fresh.run preparing).point? 0).any ((Action.vote 0 .prepared).serves 0) ∧
      (fresh.run preparing).aborts (.begin (.abort (.rolledBack "stop"))) ∧
      (fresh.run preparing).status ≠ .committed) ∧
    t'.status = .aborted ∧
    (∀ e, .told .commit e ∉ fresh.history steps) ∧
    ∀ i c, t'.calls[i]? = some c → c.purpose = .commit →
      (∀ r, t'.result? i = some r → ∃ e, r = .error e) ∧
      (t'.result? i = none → ∃ a, t'.isTurn i a) ∧
      ∃ n, ∀ more, n ≤ t'.turns i more → ∃ e, (t'.run more).result? i = some (.error e) := by
  intro fresh steps t'
  have reached : ((fresh.run preparing).point? 0).any ((Action.vote 0 .prepared).serves 0) := by
    decide
  have active : (fresh.run preparing).status ≠ .committed := by decide
  exact ⟨⟨reached, trivial, active⟩,
    (abort_not_lost "" 0 ⟨0, 0⟩ ⟨0⟩ .default preparing [(⟨0⟩, .vote 0 .prepared)] ⟨0⟩
      (.begin (.abort (.rolledBack "stop"))) trivial).2 active⟩

end Transaction

end NestedWork
