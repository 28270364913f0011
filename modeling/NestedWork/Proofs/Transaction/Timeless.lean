import NestedWork.Proofs.Transaction.Schedule

/-!
# Transactions without time

Time matters to a transaction in one case only: a commit that is held up waits, and gives up at a
deadline. As long as no commit is held up, a transaction goes through the same states at any time,
but for the times that are kept in it.

## Implementation notes

A transaction is compared with one that was opened at the zero of its clock, as the transaction
with a given number, and on which all steps are taken at that instant. No deadline has passed there,
so whoever would wait or give up elsewhere waits there.
-/

namespace NestedWork

/-- The instant and the timestamp of a clock that has just been started. -/
def Instant.zero : Instant := ⟨0⟩

/-- What is told of a transaction, without its time. -/
def Information.timeless (i : Information) : Information := { i with createdAt := ⟨0, 0⟩ }

/-- The point that a call has reached, without the times that it knows. -/
def Point.timeless : Point → Point
  | parked _ => parked none
  | asking info asked current unasked => asking info.timeless asked current unasked
  | telling info outcome current untold result =>
    telling info.timeless outcome current untold result
  | p => p

/-- A call without the times that it knows. -/
def Call.timeless (c : Call) : Call := { c with point := c.point.timeless }

/-- A commit waits to be woken. -/
def Point.waits : Point → Bool
  | parked _ => true
  | _ => false

namespace Transaction

variable {t : Transaction} {n i : Nat} {now : Instant}

/-- The transaction as the one with a given number, and without its times. -/
def timeless (t : Transaction) (n : Nat) : Transaction :=
  { t with
    sequence := n
    createdAt := ⟨0, 0⟩
    started := .zero
    calls := t.calls.map Call.timeless }

/-- A commit that looks at the transaction finds it active and has to wait. -/
structure HoldsUp (t : Transaction) : Prop where
  active : t.status = .active
  unhurried : t.nonBlocking = 0
  occupied : ¬ (t.blocking = 0 ∧ !t.committing)

/-- A call waits to be woken. -/
def isWaiting (t : Transaction) (i : Nat) : Bool := (t.point? i).any Point.waits

/-! ## What is the same without time -/

@[simp] theorem point?_timeless (t : Transaction) (n i : Nat) :
    (t.timeless n).point? i = (t.point? i).map Point.timeless := by
  simp [point?, timeless, Function.comp_def, Call.timeless]

@[simp] theorem result?_timeless (t : Transaction) (n i : Nat) :
    (t.timeless n).result? i = t.result? i := by
  simp only [result?, point?_timeless]
  cases t.point? i with
  | none => rfl
  | some p => cases p <;> rfl

@[simp] theorem length_calls_timeless (t : Transaction) (n : Nat) :
    (t.timeless n).calls.length = t.calls.length := by
  simp [timeless]

theorem timeless_moveTo (t : Transaction) (n i : Nat) (p : Point) :
    (t.moveTo i p).timeless n = (t.timeless n).moveTo i p.timeless := by
  have calls : (t.calls.modify i fun c => { c with point := p }).map Call.timeless =
      (t.calls.map Call.timeless).modify i fun c => { c with point := p.timeless } := by
    refine List.ext_getElem? fun j => ?_
    simp only [List.getElem?_map, List.getElem?_modify]
    cases t.calls[j]? with
    | none => rfl
    | some c => by_cases same : i = j <;> simp [same, Call.timeless]
  simp [timeless, moveTo, calls]

theorem timeless_wakeAll (t : Transaction) (n : Nat) :
    t.wakeAll.timeless n = (t.timeless n).wakeAll := by
  have woken (c : Call) : ({ c with point := c.point.wake } : Call).timeless =
      { c.timeless with point := c.timeless.point.wake } := by
    obtain ⟨purpose, p⟩ := c
    cases p <;> rfl
  simp [timeless, wakeAll, Function.comp_def, woken]

theorem timeless_enlist (t : Transaction) (n participant : Nat) :
    ((t.enlist participant).toOption.getD t).timeless n =
      ((t.timeless n).enlist participant).toOption.getD (t.timeless n) := by
  by_cases closed : t.status ≠ .active ∨ t.committing
  · have closed' : (t.timeless n).status ≠ .active ∨ (t.timeless n).committing := closed
    simp [enlist, if_pos closed, if_pos closed', Except.toOption]
  · have closed' : ¬ ((t.timeless n).status ≠ .active ∨ (t.timeless n).committing) := closed
    simp only [enlist, if_neg closed, if_neg closed', Except.toOption, Option.getD_some]
    rfl

theorem timeless_issue (t : Transaction) (n : Nat) (mode : DependentMode) :
    (t.issue mode).timeless n = (t.timeless n).issue mode := by
  cases mode <;> rfl

theorem enter_timeless (t : Transaction) (n : Nat) (purpose : Purpose) :
    (t.timeless n).enter purpose = ((t.enter purpose).1.timeless n, (t.enter purpose).2) ∧
      (t.enter purpose).2.timeless = (t.enter purpose).2 := by
  cases purpose with
  | commit => exact ⟨rfl, rfl⟩
  | abort reason =>
      by_cases active : t.status = .active
      · have active' : (t.timeless n).status = .active := active
        simp only [enter, abortIfActive, if_pos active, if_pos active']
        exact ⟨rfl, rfl⟩
      · have active' : ¬ (t.timeless n).status = .active := active
        simp only [enter, abortIfActive, if_neg active, if_neg active']
        exact ⟨trivial, rfl⟩
  | release k completed =>
      have dependents : (t.timeless n).dependents = t.dependents := rfl
      have status : (t.timeless n).status = t.status := rfl
      simp only [enter, releaseDependent, dependents, status]
      split
      next d _ =>
        have discount : (t.timeless n).discount k d = (t.discount k d).timeless n := by
          obtain ⟨mode, released⟩ := d
          cases mode <;> rfl
        split
        next => exact ⟨rfl, rfl⟩
        next =>
          rw [discount]
          split
          · exact ⟨rfl, rfl⟩
          · exact ⟨rfl, rfl⟩
      next => exact ⟨rfl, rfl⟩
  | lower timeout =>
      by_cases shorter : timeout < t.timeout
      · have shorter' : timeout < (t.timeless n).timeout := shorter
        simp only [enter, shorten, if_pos shorter, if_pos shorter']
        exact ⟨rfl, rfl⟩
      · have shorter' : ¬ timeout < (t.timeless n).timeout := shorter
        simp only [enter, shorten, if_neg shorter, if_neg shorter']
        exact ⟨trivial, rfl⟩

theorem timeless_begin (t : Transaction) (n : Nat) (purpose : Purpose) :
    (t.begin purpose).timeless n = (t.timeless n).begin purpose := by
  obtain ⟨eq, point⟩ := t.enter_timeless n purpose
  simp only [begin, eq]
  simp [timeless, Call.timeless, point]

theorem timeless_vote (t : Transaction) (n i : Nat) (v : Vote) :
    (t.vote i v).timeless n = (t.timeless n).vote i v := by
  simp only [vote, point?_timeless]
  cases t.point? i with
  | none => rfl
  | some p =>
      cases p with
      | asking info asked current unasked =>
          cases v with
          | prepared => cases unasked <;> exact timeless_moveTo ..
          | refused => exact timeless_moveTo ..
      | _ => rfl

theorem timeless_acknowledge (t : Transaction) (n i : Nat) :
    (t.acknowledge i).timeless n = (t.timeless n).acknowledge i := by
  simp only [acknowledge, point?_timeless]
  cases t.point? i with
  | none => rfl
  | some p =>
      cases p with
      | telling info outcome current untold result =>
          cases untold <;> exact timeless_moveTo ..
      | _ => rfl

theorem timeless_rouse (t : Transaction) (n i : Nat) :
    (t.rouse i).timeless n = (t.timeless n).rouse i := by
  simp only [rouse, point?_timeless]
  cases t.point? i with
  | none => rfl
  | some p =>
      cases p with
      | parked => exact timeless_moveTo ..
      | _ => rfl

/-! ## Looking -/

/-- A commit that is not held up finds the same at any time. -/
theorem look_timeless (t : Transaction) (n : Nat) (now : Instant) (free : ¬ t.HoldsUp) :
    (t.timeless n).look .zero = ((t.look now).1.timeless n, (t.look now).2) ∧
      (t.look now).2.timeless = (t.look now).2 := by
  have status : (t.timeless n).status = t.status := rfl
  have nonBlocking : (t.timeless n).nonBlocking = t.nonBlocking := rfl
  have blocking : (t.timeless n).blocking = t.blocking := rfl
  have committing : (t.timeless n).committing = t.committing := rfl
  simp only [look, status, nonBlocking, blocking, committing]
  by_cases closed : t.status ≠ .active
  · simp only [if_pos closed]
    exact ⟨rfl, rfl⟩
  · simp only [if_neg closed]
    by_cases hurried : 0 < t.nonBlocking
    · simp only [if_pos hurried]
      exact ⟨rfl, rfl⟩
    · simp only [if_neg hurried]
      by_cases vacant : t.blocking = 0 ∧ !t.committing
      · simp only [if_pos vacant]
        exact ⟨rfl, rfl⟩
      · exact absurd ⟨not_not.mp closed, by omega, vacant⟩ free

/-- Before any time has passed, a commit that is held up waits. -/
theorem look_of_holdsUp (h : t.HoldsUp) (started : t.started = .zero) :
    ∃ deadline, t.look .zero = (t, .parked deadline) := by
  have unhurried : ¬ 0 < t.nonBlocking := by simp [h.unhurried]
  simp only [look, h.active, ne_eq, not_true_eq_false, if_false, if_neg unhurried,
    if_neg h.occupied]
  split
  next d deadline =>
    have late : ¬ d ≤ Instant.zero := by
      simp only [Transaction.deadline, started] at deadline
      split at deadline
      next => cases deadline
      next positive =>
        simp only [Instant.after?] at deadline
        split at deadline
        next here =>
          obtain rfl := Option.some.inj deadline
          have above : 0 < t.timeout.nanos := Int.lt_of_not_ge positive
          change ¬ 0 + t.timeout.nanos.toNat ≤ 0
          omega
        next => cases deadline
    rw [if_neg late]
    exact ⟨_, rfl⟩
  next => exact ⟨_, rfl⟩

/-! ## A call that goes on -/

/-- The step of a call that goes on is the same at any time, unless it looks at the transaction and
is held up. -/
theorem timeless_advance (t : Transaction) (n i : Nat) (now : Instant)
    (free : t.point? i = some .looking → ¬ t.HoldsUp) :
    (t.advance now i).timeless n = (t.timeless n).advance .zero i := by
  simp only [advance, point?_timeless]
  cases reached : t.point? i with
  | none => rfl
  | some p =>
      cases p with
      | looking =>
          obtain ⟨eq, point⟩ := t.look_timeless n now (free reached)
          calc ((t.look now).1.moveTo i (t.look now).2).timeless n
            _ = ((t.look now).1.timeless n).moveTo i (t.look now).2 := by
              rw [timeless_moveTo, point]
            _ = ((t.timeless n).look .zero).1.moveTo i ((t.timeless n).look .zero).2 := by rw [eq]
      | gathered members => cases members <;> exact timeless_moveTo ..
      | voted members refusal =>
          simp only [Option.map_some, Point.timeless, decideFate]
          cases refusal with
          | some why => exact timeless_moveTo ..
          | none =>
              by_cases active : t.status ≠ .active
              · have active' : (t.timeless n).status ≠ .active := active
                simp only [if_pos active, if_pos active']
                exact timeless_moveTo ..
              · have active' : ¬ (t.timeless n).status ≠ .active := active
                simp only [if_neg active, if_neg active']
                exact timeless_moveTo ..
      | waking closing =>
          cases closing with
          | none =>
              simp only [Option.map_some, Point.timeless, timeless_moveTo, timeless_wakeAll]
          | some c =>
              simp only [Option.map_some, Point.timeless, timeless_moveTo, timeless_wakeAll]
      | closing c =>
          obtain ⟨outcome, members, result⟩ := c
          cases members <;> exact timeless_moveTo ..
      | _ => rfl

/-! ## A call that goes as far as it can -/

/-- A call that waits goes on waiting. -/
theorem isWaiting_settleIn (waits : t.isWaiting i = true) (now : Instant) (m : Nat) :
    (settleIn now i m t).isWaiting i = true := by
  induction m with
  | zero => exact waits
  | succ m ih =>
      obtain ⟨p, reached, parked⟩ : ∃ p, t.point? i = some p ∧ p.waits = true := by
        simpa [isWaiting, Option.any_eq_true] using waits
      have same : t.advance now i = t := by
        cases p with
        | parked => simp only [advance, reached]
        | _ => cases parked
      rw [settleIn, same]
      exact ih

/-- A call that does not end up waiting is not held up on its way. -/
theorem timeless_settleIn (now : Instant) (m : Nat) (t : Transaction)
    (free : (settleIn .zero i m (t.timeless n)).isWaiting i = false) :
    (settleIn now i m t).timeless n = settleIn .zero i m (t.timeless n) := by
  induction m generalizing t with
  | zero => rfl
  | succ m ih =>
      have step : (t.advance now i).timeless n = (t.timeless n).advance .zero i := by
        refine t.timeless_advance n i now fun reached held => ?_
        have reached' : (t.timeless n).point? i = some .looking := by simp [reached]; rfl
        have held' : (t.timeless n).HoldsUp := ⟨held.active, held.unhurried, held.occupied⟩
        obtain ⟨deadline, look⟩ := look_of_holdsUp held' rfl
        have waits : ((t.timeless n).advance .zero i).isWaiting i = true := by
          simp only [advance, reached', look]
          simp [isWaiting, point?_moveTo, reached', Point.waits]
        rw [settleIn, isWaiting_settleIn waits] at free
        cases free
      rw [settleIn, settleIn, ← step]
      refine ih _ ?_
      rw [step]
      exact free

theorem timeless_settle (t : Transaction) (now : Instant) (n i : Nat)
    (free : ((t.timeless n).settle .zero i).isWaiting i = false) :
    (t.settle now i).timeless n = (t.timeless n).settle .zero i :=
  timeless_settleIn now stride t free

/-! ## Calls that never wait -/

end Transaction

/-- The call is none that looks or waits. -/
def Point.isCalm : Point → Bool
  | looking | parked _ => false
  | _ => true

namespace Transaction

variable {t : Transaction} {n i : Nat} {now : Instant}

/-- A call is at no point at which it looks or waits. -/
def isCalm (t : Transaction) (i : Nat) : Bool := (t.point? i).all Point.isCalm

theorem isCalm_moveTo (t : Transaction) (i : Nat) {p : Point} (calm : p.isCalm = true) :
    (t.moveTo i p).isCalm i = true := by
  simp only [isCalm, point?_moveTo, if_true]
  cases t.point? i with
  | none => rfl
  | some => exact calm

theorem isWaiting_of_isCalm (calm : t.isCalm i = true) : t.isWaiting i = false := by
  simp only [isCalm, isWaiting] at calm ⊢
  cases reached : t.point? i with
  | none => rfl
  | some p =>
      rw [reached] at calm
      cases p with
      | parked => cases calm
      | _ => rfl

theorem isCalm_advance (calm : t.isCalm i = true) (now : Instant) :
    (t.advance now i).isCalm i = true := by
  unfold advance
  split
  next reached => simp [isCalm, reached, Point.isCalm] at calm
  next => exact isCalm_moveTo _ _ rfl
  next => exact isCalm_moveTo _ _ rfl
  next members refusal _ =>
    refine isCalm_moveTo _ _ ?_
    cases refusal with
    | some => rfl
    | none =>
        dsimp only [decideFate]
        split <;> rfl
  next => exact isCalm_moveTo _ _ rfl
  next => exact isCalm_moveTo _ _ rfl
  next c _ =>
    refine isCalm_moveTo _ _ ?_
    unfold Point.toldAll
    split <;> rfl
  next => exact calm

theorem isCalm_settleIn (calm : t.isCalm i = true) (now : Instant) (m : Nat) :
    (settleIn now i m t).isCalm i = true := by
  induction m generalizing t with
  | zero => exact calm
  | succ m ih => exact ih (isCalm_advance calm now)

theorem Enters.isCalm {t₁ : Transaction} {p : Point} {purpose : Purpose}
    (enters : t.Enters purpose t₁ p) (other : purpose ≠ .commit) : p.isCalm = true := by
  cases enters with
  | commit => exact absurd rfl other
  | _ => rfl

/-- Whatever is asked of a transaction but to commit, nobody waits for it. -/
theorem isCalm_begin (t : Transaction) {purpose : Purpose} (other : purpose ≠ .commit) :
    (t.begin purpose).isCalm t.calls.length = true := by
  have kept : (t.enter purpose).1.calls = t.calls := (enters_enter t purpose).calls_eq
  have calm : (t.enter purpose).2.isCalm = true := (enters_enter t purpose).isCalm other
  simp [isCalm, begin, point?, kept, calm]

end Transaction

end NestedWork
