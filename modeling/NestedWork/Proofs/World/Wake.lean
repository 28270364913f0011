import NestedWork.Proofs.Transaction.Wake
import NestedWork.Proofs.World.Lives

/-!
# No waiting commit is forgotten

A commit that waits is woken by whoever decides the fate of the transaction. Once a call has gone as
far as it does by itself, nobody is left who has yet to wake others, and so nobody waits on a closed
transaction.

## Implementation notes

Between the critical section that closes a transaction and the wakening there is a point at which
commits still wait. Runs on a transaction show this point, and the runs of the world do not.
-/

namespace NestedWork

namespace Point

variable (p : Point)

/-- The most steps that a call takes by itself in a row from a point on. -/
def pace : Point → Nat
  | looking => 5
  | gathered [] => 4
  | voted _ _ => 3
  | waking (some _) => 2
  | gathered (_ :: _) | waking none | closing _ => 1
  | parked _ | asking _ _ _ _ | telling _ _ _ _ _ | finished _ => 0

theorem pace_le : p.pace ≤ 5 := by
  cases p with
  | gathered members => cases members <;> simp [pace]
  | waking c => cases c <;> simp [pace]
  | _ => simp [pace]

variable {p : Point}

/-- A call that takes no step by itself is not about to wake anybody. -/
theorem isWaking_of_pace (still : p.pace = 0) : p.isWaking = false := by
  cases p with
  | waking c => cases c <;> cases still
  | _ => rfl

theorem pace_of_not_ready (idle : p.isReady = false) : p.pace = 0 := by
  cases p <;> first | rfl | cases idle

end Point

namespace Transaction

variable {t t₁ t' : Transaction} {now : Instant} {events votes : List Event} {i j : Nat}
  {p p' : Point}

/-! ## Calls that have gone as far as they do by themselves -/

/-- No call is about to wake the commits that wait, except perhaps one. -/
def QuietBut (i : Nat) (t : Transaction) : Prop :=
  ∀ (j : Nat) (p : Point), j ≠ i → t.point? j = some p → p.isWaking = false

/-- No call is about to wake the commits that wait. -/
def Quiet (t : Transaction) : Prop :=
  ∀ (j : Nat) (p : Point), t.point? j = some p → p.isWaking = false

theorem Quiet.quietBut (h : t.Quiet) (i : Nat) : t.QuietBut i := fun j p _ => h j p

theorem QuietBut.perform {a : Action} (h : t.QuietBut i) (now : Instant)
    (meant : a.call? = some i) : (t.perform now a).QuietBut i := by
  intro j p ne reached
  by_cases served : ∃ p, t.point? i = some p ∧ a.serves i p
  · obtain ⟨q, there, served⟩ := served
    obtain ⟨votes, t₁, q', moves, eq, -⟩ := exists_moves t now there served
    rw [eq] at reached
    rcases moves.point?_of_ne ne.symm with same | woken
    · exact h j p ne (same.symm.trans reached)
    · obtain ⟨q, before, rfl⟩ := Option.map_eq_some_iff.mp (woken.symm.trans reached)
      simpa using h j q ne before
  · have same := (perform_eq_self t now meant fun p reached => by
      simpa using fun h => served ⟨p, reached, h⟩).1
    rw [same] at reached
    exact h j p ne reached

theorem QuietBut.runAt {actions : List Action} (h : t.QuietBut i) (now : Instant)
    (meant : ∀ a ∈ actions, a.call? = some i) : (t.runAt now actions).QuietBut i := by
  induction actions generalizing t with
  | nil => exact h
  | cons a rest ih =>
      rw [runAt_cons]
      exact ih (h.perform now (meant a (List.mem_cons_self ..)))
        fun b mem => meant b (List.mem_cons_of_mem a mem)

/-- A step that a call takes by itself leaves it fewer of them. -/
theorem Moves.pace_lt (moves : t.Moves now p votes t₁ p') (ready : p.isReady = true) :
    p'.pace < p.pace := by
  cases moves with
  | gather =>
      have le := Point.pace_le (.gathered t.enlistments)
      cases eq : t.enlistments <;> simp [Point.pace]
  | rouse | hearRefusal | hearLast | hearAndAsk | toldLast | tellNext => cases ready
  | _ => simp [strike, Point.pace]

theorem pace_advances (now : Instant) (n : Nat) (reached : t.point? i = some p) :
    ∃ p', (t.runAt now (List.replicate n (.advance i))).point? i = some p' ∧
      p'.pace ≤ p.pace - n := by
  induction n generalizing t p with
  | zero => exact ⟨p, reached, Nat.le_refl _⟩
  | succ n ih =>
      rw [List.replicate_succ, runAt_cons]
      cases ready : p.isReady with
      | true =>
          have served : (Action.advance i).serves i p = true := by simp [Action.serves, ready]
          obtain ⟨votes, t₁, q, moves, eq, -⟩ := exists_moves t now reached served
          obtain ⟨p', reached', le⟩ := ih (moves.point?_eq reached)
          have lt := moves.pace_lt ready
          rw [eq]
          exact ⟨p', reached', by omega⟩
      | false =>
          have idle := (perform_eq_self t now (a := .advance i) rfl fun q there => by
            obtain rfl := Option.some.inj (reached.symm.trans there)
            simpa [Action.serves] using ready).1
          obtain ⟨p', reached', le⟩ := ih reached
          have none := Point.pace_of_not_ready ready
          rw [idle]
          exact ⟨p', reached', by omega⟩

/-- A call that has gone as far as it does by itself has woken those that it had to. -/
theorem QuietBut.settle (h : t.QuietBut i) (now : Instant) : (t.settle now i).Quiet := by
  rw [settle_eq]
  intro j p reached
  by_cases same : j = i
  · subst same
    cases before : t.point? j with
    | none =>
        have idle (n : Nat) : t.runAt now (List.replicate n (.advance j)) = t := by
          induction n with
          | zero => rfl
          | succ n ih =>
              rw [List.replicate_succ, runAt_cons]
              rw [(perform_eq_self t now (a := .advance j) rfl (by simp [before])).1, ih]
        rw [strides, idle, before] at reached
        cases reached
    | some q =>
        obtain ⟨p', reached', le⟩ := pace_advances now stride before
        obtain rfl := Option.some.inj (reached.symm.trans reached')
        have bound := q.pace_le
        exact Point.isWaking_of_pace (by rw [stride] at le; omega)
  · have kept : (t.runAt now (strides i)).QuietBut i := h.runAt now fun a mem => by
      rw [List.eq_of_mem_replicate mem]
      rfl
    exact kept j p same reached

theorem quiet_create (localId : String) (sequence : Nat) (createdAt : Calendar.Timestamp)
    (started : Instant) (options : TransactionOptions) :
    (create localId sequence createdAt started options).Quiet := by
  intro j p reached
  cases reached

theorem Quiet.begin (h : t.Quiet) (purpose : Purpose) :
    (t.begin purpose).QuietBut t.calls.length := by
  intro j p ne reached
  simp only [Transaction.begin, point?, (enters_enter t purpose).calls_eq] at reached
  rcases Nat.lt_or_gt_of_ne ne with lt | gt
  · rw [List.getElem?_append_left lt] at reached
    exact h j p reached
  · rw [List.getElem?_eq_none (by simp; omega)] at reached
    cases reached

theorem Quiet.issue (h : t.Quiet) (mode : DependentMode) : (t.issue mode).Quiet := by
  rw [issue_eq]
  exact h

theorem Quiet.enlist (h : t.Quiet) (participant : Nat) :
    ((t.enlist participant).toOption.getD t).Quiet := by
  unfold Transaction.enlist
  split <;> exact h

/-- Nobody waits on a closed transaction on which nobody is about to wake others. -/
theorem Quiet.not_parked (h : t.Quiet) (alert : t.Alert) (closed : t.status ≠ .active)
    (reached : t.point? i = some p) : p.isParked = false := by
  by_contra parked
  rw [Bool.not_eq_false] at parked
  obtain ⟨c, hc, rfl⟩ := Option.map_eq_some_iff.mp reached
  obtain ⟨d, mem, waking⟩ := alert closed c (List.mem_of_getElem? hc) parked
  obtain ⟨k, hk⟩ := List.mem_iff_getElem?.mp mem
  have quiet := h k d.point (by simp [point?, hk])
  rw [waking] at quiet
  cases quiet

end Transaction

end NestedWork
