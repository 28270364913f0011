import NestedWork.Proofs.Transaction.Schedule

/-!
# What the state of a transaction says about its calls

At most one commit has the participants in its hands, and the list is empty meanwhile. No call
tells an outcome other than the one that the status shows. Every step keeps this.
-/

namespace NestedWork

/-- The call may decide the fate of a transaction: a commit, an abort, or a dependent that is
given up. -/
def Purpose.decides : Purpose → Bool
  | .commit | .abort _ => true
  | .release _ completed => !completed
  | .lower _ => false

/-- A call that cannot decide the fate only wakes the waiting commits. -/
def Call.isMild (c : Call) : Prop := c.point = .waking none ∨ ∃ r, c.point = .finished r

namespace Transaction

variable {t t₁ t' : Transaction} {now : Instant} {events : List Event}

/-- The status, the list of participants and the calls of a transaction agree. -/
structure Consistent (t : Transaction) : Prop where
  opened : t.status ≠ .inDoubt
  preparing : (t.calls.countP fun c => c.point.isPreparing) = t.committing.toNat
  emptied : t.committing = true ∨ t.status ≠ .active → t.enlistments = []
  free : t.status = .committed → t.committing = false
  outcome : ∀ c ∈ t.calls, ∀ o, c.point.outcome? = some o → t.status = o.status
  mild : ∀ c ∈ t.calls, c.purpose.decides = false → c.isMild

theorem consistent_create (localId : String) (sequence : Nat) (createdAt : Calendar.Timestamp)
    (started : Instant) (options : TransactionOptions) :
    (create localId sequence createdAt started options).Consistent where
  opened := by simp [create]
  preparing := rfl
  emptied := by simp [create]
  free := by simp [create]
  outcome := by simp [create]
  mild := by simp [create]

namespace Consistent

/-- No call of an active transaction tells an outcome. -/
theorem outcome?_eq_none (h : t.Consistent) (active : t.status = .active) {c : Call}
    (mem : c ∈ t.calls) : c.point.outcome? = none := by
  cases told : c.point.outcome? with
  | none => rfl
  | some o =>
      have status := h.outcome c mem o told
      cases o <;> simp [active, Outcome.status] at status

/-- The commit that has the participants in its hands is the one that the state shows. -/
theorem of_isPreparing (h : t.Consistent) {i : Nat} {p : Point} (reached : t.point? i = some p)
    (hp : p.isPreparing) :
    t.committing = true ∧ t.enlistments = [] ∧ t.status ≠ .committed := by
  obtain ⟨purpose, mem⟩ := exists_mem_of_point? reached
  have pos : 0 < t.calls.countP fun c => c.point.isPreparing :=
    List.countP_pos_iff.mpr ⟨_, mem, hp⟩
  have committing : t.committing = true := by
    rw [h.preparing] at pos
    cases eq : t.committing with
    | false => simp [eq] at pos
    | true => rfl
  refine ⟨committing, h.emptied (.inl committing), ?_⟩
  intro committed
  simp [h.free committed] at committing

/-! ## Every step keeps it -/

variable {i : Nat} {p p' : Point} {votes : List Event} {purpose : Purpose}

theorem preparing_move (h : t.Consistent) (reached : t.point? i = some p)
    (m : t.Moves now p votes t₁ p') :
    ((t₁.moveTo i p').calls.countP fun c => c.point.isPreparing) = t₁.committing.toNat := by
  obtain ⟨purpose, rest, -, before, after⟩ :=
    m.exists_countP reached (fun c => c.point.isPreparing) (by simp [Call.wake])
  rw [after]
  rw [h.preparing] at before
  clear after
  have le := t.committing.toNat_le
  cases m with
  | gather _ _ _ free =>
      simp only [Point.isPreparing, free, Bool.toNat_false, Bool.toNat_true] at before ⊢
      omega
  | strikeRefused | concede | decide =>
      simp only [strike, Point.isPreparing, Bool.toNat_false, Bool.toNat_true] at before ⊢
      omega
  | _ => exact before.symm

theorem outcome_move (h : t.Consistent) (reached : t.point? i = some p)
    (m : t.Moves now p votes t₁ p') :
    ∀ c ∈ (t₁.moveTo i p').calls, ∀ o, c.point.outcome? = some o → t₁.status = o.status := by
  apply m.forall_calls reached (P := fun c => ∀ o, c.point.outcome? = some o → t₁.status = o.status)
  · intro c hc
    simpa [Call.wake] using hc
  · intro c mem o told
    have before := h.outcome c mem o told
    cases m with
    | strikeOutstanding active | strikeLate active | decide _ active =>
        simp [h.outcome?_eq_none active mem] at told
    | strikeRefused =>
        have open' := (h.of_isPreparing reached rfl).2.2
        cases o with
        | commit => exact absurd before open'
        | rollback => rfl
    | _ => exact before
  · intro purpose mem o told
    cases m with
    | strikeOutstanding | strikeLate | strikeRefused | decide =>
        obtain rfl := Option.some.inj told
        rfl
    | concede members closed =>
        obtain rfl := Option.some.inj told
        have open' := (h.of_isPreparing reached rfl).2.2
        have opened := h.opened
        revert closed open' opened
        cases t.status <;> simp [Outcome.status]
    | wakeToTell | tell | tellNext => exact h.outcome _ mem o told
    | _ => simp [Point.outcome?] at told

theorem mild_move (h : t.Consistent) (reached : t.point? i = some p)
    (m : t.Moves now p votes t₁ p') :
    ∀ c ∈ (t₁.moveTo i p').calls, c.purpose.decides = false → c.isMild := by
  apply m.forall_calls reached (P := fun c => c.purpose.decides = false → c.isMild)
  · intro c hc mild
    rcases hc mild with eq | ⟨r, eq⟩
    · exact .inl (by simp [Call.wake, eq, Point.wake])
    · exact .inr ⟨r, by simp [Call.wake, eq, Point.wake]⟩
  · exact h.mild
  · intro purpose mem mild
    rcases h.mild _ mem mild with eq | ⟨r, eq⟩
    · cases eq
      cases m
      exact .inr ⟨_, rfl⟩
    · cases eq
      cases m

theorem move (h : t.Consistent) (reached : t.point? i = some p)
    (m : t.Moves now p votes t₁ p') : (t₁.moveTo i p').Consistent where
  opened := by
    have opened := h.opened
    cases m <;> simp [moveTo, strike, wakeAll, opened]
  preparing := h.preparing_move reached m
  emptied := by
    have emptied := h.emptied
    cases m <;> simp_all [moveTo, strike, wakeAll]
  free := by
    have free := h.free
    cases m <;> simp_all [moveTo, strike, wakeAll]
  outcome := h.outcome_move reached m
  mild := h.mild_move reached m

/-- Beginning a call keeps the agreement of the calls before it, and the call agrees as well. -/
theorem begin (h : t.Consistent) (e : t.Enters purpose t₁ p) :
    Consistent { t₁ with calls := t₁.calls ++ [⟨purpose, p⟩] } where
  opened := by
    have opened := h.opened
    cases e <;> simp [strike, discount_eq, opened]
  preparing := by
    have preparing := h.preparing
    rw [List.countP_append, e.calls_eq, preparing]
    cases e <;> simp [strike, discount_eq, Point.isPreparing]
  emptied := by
    have emptied := h.emptied
    cases e <;> simp_all [strike, discount_eq]
  free := by
    have free := h.free
    cases e <;> simp_all [strike, discount_eq]
  outcome := by
    intro c mem o told
    rw [e.calls_eq] at mem
    rcases List.mem_append.mp mem with old | new
    · have before := h.outcome c old o told
      cases e with
      | strike _ active | forsake _ _ active =>
          simp [h.outcome?_eq_none active old] at told
      | release => simpa [discount_eq] using before
      | _ => exact before
    · obtain rfl := List.mem_singleton.mp new
      cases e with
      | strike | forsake =>
          obtain rfl := Option.some.inj told
          rfl
      | _ => simp [Point.outcome?] at told
  mild := by
    intro c mem mild
    rw [e.calls_eq] at mem
    rcases List.mem_append.mp mem with old | new
    · exact h.mild c old mild
    · obtain rfl := List.mem_singleton.mp new
      cases e with
      | commit | strike | late | forsake => simp [Purpose.decides] at mild
      | release | shorten => exact .inl rfl
      | spare | keep => exact .inr ⟨_, rfl⟩

/-- Every step keeps the status, the list and the calls in agreement. -/
theorem step (h : t.Consistent) (s : t.Step now events t') : t'.Consistent := by
  cases s with
  | stay => exact h
  | enlist participant active free =>
      exact { h with emptied := by simp [active, free] }
  | issue mode =>
      rw [issue_eq]
      exact { h with }
  | begin enters => exact h.begin enters
  | move reached moves => exact h.move reached moves

end Consistent

/-- The status, the list and the calls of a transaction agree after every run. -/
theorem consistent_run (localId : String) (sequence : Nat) (createdAt : Calendar.Timestamp)
    (started : Instant) (options : TransactionOptions) (steps : List (Instant × Action)) :
    ((create localId sequence createdAt started options).run steps).Consistent :=
  run_induction Consistent.step (consistent_create ..) steps

end Transaction

end NestedWork
