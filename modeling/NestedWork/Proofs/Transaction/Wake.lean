import NestedWork.Proofs.Transaction.Dependents
import NestedWork.Proofs.Transaction.Reason

/-!
# No wake-up is lost

A commit that waits is woken by everything that may end its wait: by whoever decides the fate of the
transaction, by a dependent that is released and by a timeout that is shortened. So whenever nobody
is about to wake others, each commit that waits still has a reason to, and it waits for the deadline
that the transaction has now.

## Implementation notes

One commit lets go of the participants without waking anybody: the one that finds its transaction
aborted when it has the votes. Nobody is left waiting by it, since the abort woke them all before.
That is why what is shown of closed transactions is shown apart from what is shown of active ones.
-/

namespace NestedWork

namespace Point

/-- The call is about to wake the commits that wait. -/
def isWaking : Point → Bool
  | waking _ => true
  | _ => false

/-- The call is a commit that waits. -/
def isParked : Point → Bool
  | parked _ => true
  | _ => false

variable (p : Point)

@[simp] theorem isWaking_wake : p.wake.isWaking = p.isWaking := by cases p <;> rfl

@[simp] theorem isParked_wake : p.wake.isParked = false := by cases p <;> rfl

end Point

namespace Transaction

variable {t t₁ t' : Transaction} {now : Instant} {events votes : List Event} {i : Nat}
  {p p' : Point}

/-! ## Who waits on a closed transaction -/

/-- Whoever waits on a closed transaction is about to be woken. -/
def Alert (t : Transaction) : Prop :=
  t.status ≠ .active → ∀ c ∈ t.calls, c.point.isParked = true →
    ∃ d ∈ t.calls, d.point.isWaking = true

theorem alert_create (localId : String) (sequence : Nat) (createdAt : Calendar.Timestamp)
    (started : Instant) (options : TransactionOptions) :
    (create localId sequence createdAt started options).Alert := by
  intro closed
  exact absurd rfl closed

/-- A call that moves and wakes nobody leaves those that are about to. -/
theorem Moves.exists_waking (moves : t.Moves now p votes t₁ p') (reached : t.point? i = some p)
    (kept : p.isWaking = true → p'.isWaking = true)
    (waking : p'.isWaking = true ∨ ∃ d ∈ t.calls, d.point.isWaking = true) :
    ∃ d ∈ (t₁.moveTo i p').calls, d.point.isWaking = true := by
  obtain ⟨purpose, rest, mem, before, after⟩ :=
    moves.exists_countP reached (fun c => c.point.isWaking) (by simp [Call.wake])
  have count : 0 < (t₁.moveTo i p').calls.countP fun c => c.point.isWaking := by
    rw [after]
    rcases waking with waking | others
    · simp [waking]
    · have pos : 0 < t.calls.countP fun c => c.point.isWaking := List.countP_pos_iff.mpr others
      rw [before] at pos
      cases eq : p.isWaking with
      | true => simp [kept eq]
      | false =>
          simp only [eq, Bool.toNat_false] at pos
          omega
  exact List.countP_pos_iff.mp count

/-- Who waits after a call has moved is that call, or has waited before. -/
theorem Moves.parked_back (moves : t.Moves now p votes t₁ p') (reached : t.point? i = some p) :
    ∀ c ∈ (t₁.moveTo i p').calls, c.point.isParked = true →
      p'.isParked = true ∨ ∃ d ∈ t.calls, d.point.isParked = true := by
  obtain ⟨before, purpose, after, split, -, eq | eq⟩ := moves.exists_split reached
  · intro c mem parked
    rw [eq] at mem
    rcases List.mem_append.mp mem with old | new
    · exact .inr ⟨c, by simp [split, old], parked⟩
    · rcases List.mem_cons.mp new with rfl | old
      · exact .inl parked
      · exact .inr ⟨c, by simp [split, old], parked⟩
  · intro c mem parked
    have woken {cs : List Call} (mem : c ∈ cs.map Call.wake) : False := by
      obtain ⟨d, -, rfl⟩ := List.mem_map.mp mem
      simp [Call.wake] at parked
    rw [eq] at mem
    rcases List.mem_append.mp mem with old | new
    · exact (woken old).elim
    · rcases List.mem_cons.mp new with rfl | old
      · exact .inl parked
      · exact (woken old).elim

/-- After all have been woken, nobody waits. -/
theorem not_parked_wakeAll (idle : p.isParked = false) :
    ∀ c ∈ (t.wakeAll.moveTo i p).calls, c.point.isParked = false := by
  intro c mem
  obtain ⟨j, there⟩ := List.mem_iff_getElem?.mp mem
  simp only [moveTo, wakeAll, List.getElem?_modify, List.getElem?_map] at there
  cases before : t.calls[j]? with
  | none => simp [before] at there
  | some d =>
      by_cases same : i = j
      · obtain rfl : { d with point := p } = c := by simpa [before, same] using there
        exact idle
      · obtain rfl : d.wake = c := by simpa [before, same, Call.wake] using there
        simp [Call.wake]

/-- Every step leaves nobody waiting on a closed transaction who is not about to be woken. -/
theorem Alert.step (h : t.Alert) (s : t.Step now events t') : t'.Alert := by
  cases s with
  | stay => exact h
  | enlist => exact h
  | issue mode =>
      rw [issue_eq]
      exact h
  | @begin purpose t₁ p enters =>
      intro closed c mem parked
      rw [enters.calls_eq] at mem ⊢
      by_cases struck : p.isWaking = true
      · exact ⟨⟨purpose, p⟩, by simp, struck⟩
      · have before : t.status ≠ .active := by
          cases enters with
          | strike | forsake | release => exact absurd rfl struck
          | _ => exact closed
        have old : c ∈ t.calls := by
          rcases List.mem_append.mp mem with old | new
          · exact old
          · obtain rfl := List.mem_singleton.mp new
            cases enters <;> cases parked
        obtain ⟨d, there, waking⟩ := h before c old parked
        exact ⟨d, List.mem_append_left _ there, waking⟩
  | @move i p p' votes t₁ reached moves =>
      intro closed c mem parked
      -- Whoever waits did so before, and whoever was about to wake others still is.
      have kept (before : t.status ≠ .active) (awake : p.isWaking = false)
          (idle : p'.isParked = false) :
          ∃ d ∈ (t₁.moveTo i p').calls, d.point.isWaking = true := by
        obtain ⟨d, there, waits⟩ :=
          (moves.parked_back reached c mem parked).resolve_left (by simp [idle])
        exact moves.exists_waking reached (by simp [awake]) (.inr (h before d there waits))
      have struck (waking : p'.isWaking = true) :
          ∃ d ∈ (t₁.moveTo i p').calls, d.point.isWaking = true :=
        moves.exists_waking reached (fun _ => waking) (.inl waking)
      cases moves with
      | strikeOutstanding | strikeLate | strikeRefused | decide => exact struck rfl
      | park active | gather active => exact absurd active closed
      | wake | wakeToTell =>
          rw [not_parked_wakeAll rfl c mem] at parked
          cases parked
      | _ => exact kept closed rfl rfl

/-! ## Who waits on an active transaction -/

/-- Whoever waits on an active transaction has a reason to, and knows the deadline, unless somebody
is about to wake it. -/
def Patient (t : Transaction) : Prop :=
  t.status = .active → ∀ i deadline, t.point? i = some (.parked deadline) →
    (∃ c ∈ t.calls, c.point.isWaking = true) ∨
      (0 < t.blocking ∨ t.committing = true) ∧ deadline = t.deadline

theorem patient_create (localId : String) (sequence : Nat) (createdAt : Calendar.Timestamp)
    (started : Instant) (options : TransactionOptions) :
    (create localId sequence createdAt started options).Patient := by
  intro _ i deadline parked
  cases parked

/-- A call that waits after a step waited before it, or is the one that has moved. -/
theorem Step.parked_back (s : t.Step now events t') {deadline : Option Instant}
    (parked : t'.point? i = some (.parked deadline)) :
    t.point? i = some (.parked deadline) ∨
      ∃ p votes t₁, t.Moves now p votes t₁ (.parked deadline) ∧
        t' = t₁.moveTo i (.parked deadline) := by
  rcases s.point?_cases parked with
    ⟨p, there, rfl | woken⟩ | ⟨p, votes, t₁, -, moves, eq⟩ | ⟨purpose, t₁, -, enters, -⟩
  · exact .inl there
  · have awake := congrArg Point.isParked woken
    rw [Point.isParked_wake] at awake
    cases awake
  · exact .inr ⟨p, votes, t₁, moves, eq⟩
  · cases enters

namespace Patient

/-- A call that has just begun leaves those that wait with their reasons. -/
theorem begin (h : t.Patient) {purpose : Purpose} (enters : t.Enters purpose t₁ p)
    (active : t₁.status = .active) {deadline : Option Instant}
    (parked : t.point? i = some (.parked deadline)) :
    (∃ c ∈ t₁.calls ++ [⟨purpose, p⟩], c.point.isWaking = true) ∨
      (0 < t₁.blocking ∨ t₁.committing = true) ∧ deadline = t₁.deadline := by
  have kept (before : t.status = .active) :
      (∃ c ∈ t.calls ++ [⟨purpose, p⟩], c.point.isWaking = true) ∨
        (0 < t.blocking ∨ t.committing = true) ∧ deadline = t.deadline := by
    refine (h before i deadline parked).imp_left ?_
    rintro ⟨c, mem, waking⟩
    exact ⟨c, List.mem_append_left _ mem, waking⟩
  cases enters with
  | strike | forsake => cases active
  | release | shorten => exact .inl ⟨_, List.mem_append_right _ (List.mem_cons_self ..), rfl⟩
  | commit | late | spare | keep => exact kept active

/-- A call that moves leaves those that wait with their reasons. -/
theorem move {j : Nat} (h : t.Patient) (reached : t.point? j = some p)
    (moves : t.Moves now p votes t₁ p') (active : t₁.status = .active)
    {deadline : Option Instant} (parked : t.point? i = some (.parked deadline))
    (waits : (t₁.moveTo j p').point? i = some (.parked deadline)) :
    (∃ c ∈ (t₁.moveTo j p').calls, c.point.isWaking = true) ∨
      (0 < t₁.blocking ∨ t₁.committing = true) ∧ deadline = t₁.deadline := by
  have kept (before : t.status = .active) (awake : p.isWaking = false) :
      (∃ c ∈ (t₁.moveTo j p').calls, c.point.isWaking = true) ∨
        (0 < t.blocking ∨ t.committing = true) ∧ deadline = t.deadline := by
    refine (h before i deadline parked).imp_left fun others => ?_
    exact moves.exists_waking reached (by simp [awake]) (.inr others)
  cases moves with
  | strikeOutstanding | strikeLate | strikeRefused | decide => cases active
  | concede members closed => exact absurd active closed
  | gather before => exact (kept before rfl).imp_right fun ⟨_, same⟩ => ⟨.inr rfl, same⟩
  | wake | wakeToTell =>
      obtain ⟨purpose, mem⟩ := exists_mem_of_point? waits
      have awake := not_parked_wakeAll rfl _ mem
      cases awake
  | _ => exact kept active rfl

/-- Every step leaves those that wait on an active transaction with their reasons. -/
theorem step (h : t.Patient) (s : t.Step now events t') : t'.Patient := by
  intro active i deadline waits
  rcases s.parked_back waits with parked | ⟨p, votes, t₁, moves, rfl⟩
  · cases s with
    | stay => exact h active i deadline parked
    | enlist => exact h active i deadline parked
    | issue mode =>
        rw [issue_eq] at active ⊢
        refine (h active i deadline parked).imp_right fun ⟨busy, same⟩ => ⟨?_, same⟩
        exact busy.imp_left fun held => Nat.lt_of_lt_of_le held (Nat.le_add_right _ _)
    | begin enters => exact h.begin enters active parked
    | move reached moves => exact h.move reached moves active parked waits
  · cases moves with
    | park _ _ busy =>
        refine .inr ⟨?_, rfl⟩
        rcases Nat.eq_zero_or_pos t.blocking with idle | held
        · exact .inr (by simpa [idle, moveTo] using busy)
        · exact .inl held

end Patient

/-! ## Reasons to wait -/

/-- A dependent holds up the commits. -/
theorem Counted.exists_blocking (h : t.Counted) (held : 0 < t.blocking) :
    ∃ d ∈ t.dependents, d.mode = .blocking ∧ d.released = false := by
  have blocking := h .blocking
  rw [count] at blocking
  rw [blocking] at held
  obtain ⟨d, mem, out⟩ := List.countP_pos_iff.mp held
  exact ⟨d, mem, by simpa [Dependent.isOut] using out⟩

/-- A commit has the participants in its hands. -/
theorem Consistent.exists_preparing (h : t.Consistent) (reasoned : t.Reasoned)
    (committing : t.committing = true) :
    ∃ (j : Nat) (c : Call), t.calls[j]? = some c ∧ c.purpose = .commit ∧
      c.point.isPreparing = true := by
  have one : 0 < t.calls.countP fun c => c.point.isPreparing := by
    rw [h.preparing, committing]
    decide
  obtain ⟨c, mem, preparing⟩ := List.countP_pos_iff.mp one
  obtain ⟨j, hj⟩ := List.mem_iff_getElem?.mp mem
  have open' : c.point.ending? = none := by
    cases eq : c.point <;> simp [eq, Point.isPreparing, Point.ending?] at preparing ⊢
  exact ⟨j, c, hj, by simpa [Call.isCommit] using reasoned.undecided c mem open', preparing⟩

/-- Once nobody is about to wake others, each commit that waits still has a reason to: the
transaction is active, a dependent that holds up commits is outstanding or another commit has the
participants in its hands, and the deadline that it waits for is the one that the transaction has
now. -/
theorem parked_has_reason (localId : String) (sequence : Nat) (createdAt : Calendar.Timestamp)
    (started : Instant) (options : TransactionOptions) (steps : List (Instant × Action)) :
    let t := (create localId sequence createdAt started options).run steps
    (∀ c ∈ t.calls, c.point.isWaking = false) →
      ∀ i deadline, t.point? i = some (.parked deadline) →
        t.status = .active ∧ deadline = t.deadline ∧
          ((∃ d ∈ t.dependents, d.mode = .blocking ∧ d.released = false) ∨
            ∃ j c, j ≠ i ∧ t.calls[j]? = some c ∧ c.purpose = .commit ∧
              c.point.isPreparing = true) := by
  intro t still i deadline parked
  have alert : t.Alert :=
    run_induction Alert.step (alert_create localId sequence createdAt started options) steps
  have patient : t.Patient :=
    run_induction Patient.step (patient_create localId sequence createdAt started options) steps
  have counted : t.Counted :=
    run_induction Counted.step (counted_create localId sequence createdAt started options) steps
  have consistent : t.Consistent := consistent_run localId sequence createdAt started options steps
  have reasoned : t.Reasoned := reasoned_run localId sequence createdAt started options steps
  have nobody : ¬ ∃ c ∈ t.calls, c.point.isWaking = true := by
    rintro ⟨c, mem, waking⟩
    rw [still c mem] at waking
    cases waking
  have active : t.status = .active := by
    by_contra closed
    obtain ⟨purpose, mem⟩ := exists_mem_of_point? parked
    exact nobody (alert closed _ mem rfl)
  obtain ⟨busy, same⟩ := (patient active i deadline parked).resolve_left nobody
  refine ⟨active, same, busy.imp counted.exists_blocking fun committing => ?_⟩
  obtain ⟨j, c, hj, commit, preparing⟩ := consistent.exists_preparing reasoned committing
  refine ⟨j, c, ?_, hj, commit, preparing⟩
  rintro rfl
  have waits : c.point = .parked deadline := by simpa [point?, hj] using parked
  rw [waits] at preparing
  cases preparing

/-- A commit waits for a dependent, and then the timeout is shortened. -/
def shortened : List (Instant × Action) :=
  [.issue .blocking, .begin .commit, .advance 0, .begin (.lower ⟨5⟩), .advance 1,
    .advance 0].map fun a => (⟨0⟩, a)

/-- A commit that waits for the shortened deadline. -/
theorem parked_has_reason_shortened :
    let t := (create "" 0 ⟨0, 0⟩ ⟨0⟩ .default).run shortened
    (∀ c ∈ t.calls, c.point.isWaking = false) ∧ t.point? 0 = some (.parked (some ⟨5⟩)) ∧
      t.status = .active ∧ some ⟨5⟩ = t.deadline ∧
        ((∃ d ∈ t.dependents, d.mode = .blocking ∧ d.released = false) ∨
          ∃ j c, j ≠ 0 ∧ t.calls[j]? = some c ∧ c.purpose = .commit ∧
            c.point.isPreparing = true) := by
  intro t
  have still : ∀ c ∈ t.calls, c.point.isWaking = false := by decide
  have parked : t.point? 0 = some (.parked (some ⟨5⟩)) := rfl
  exact ⟨still, parked,
    parked_has_reason "" 0 ⟨0, 0⟩ ⟨0⟩ .default shortened still 0 (some ⟨5⟩) parked⟩

end Transaction

end NestedWork
