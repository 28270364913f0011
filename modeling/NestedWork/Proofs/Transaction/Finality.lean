import NestedWork.Proofs.Transaction.Ledger

/-!
# The fate of a transaction is final

A transaction that is aborted stays so, and so does one that is committed. An abort that comes
before the decision is therefore never lost: the decision finds it, whether the commit was
waiting, was asking the participants or had not begun.
-/

namespace NestedWork.Transaction

variable {t t₁ t' : Transaction} {now : Instant} {events : List Event} {i : Nat}

/-! ## The status once it is decided -/

/-- A transaction that is aborted stays so. -/
theorem Step.aborted (s : t.Step now events t') (aborted : t.status = .aborted) :
    t'.status = .aborted := by
  cases s with
  | stay => exact aborted
  | enlist _ active =>
      rw [aborted] at active
      cases active
  | issue mode =>
      rw [issue_eq]
      exact aborted
  | begin enters =>
      cases enters with
      | strike | forsake => rfl
      | release =>
          rw [discount_eq]
          exact aborted
      | _ => exact aborted
  | move reached moves =>
      cases moves with
      | strikeOutstanding | strikeLate | strikeRefused => rfl
      | decide members active =>
          rw [aborted] at active
          cases active
      | _ => exact aborted

/-- A transaction that is committed stays so. -/
theorem Step.committed (s : t.Step now events t') (h : t.Consistent)
    (committed : t.status = .committed) : t'.status = .committed := by
  have closed : t.status ≠ .active := by simp [committed]
  cases s with
  | stay => exact committed
  | enlist _ active => exact absurd active closed
  | issue mode =>
      rw [issue_eq]
      exact committed
  | begin enters =>
      cases enters with
      | strike _ active | forsake _ _ active => exact absurd active closed
      | release =>
          rw [discount_eq]
          exact committed
      | _ => exact committed
  | move reached moves =>
      cases moves with
      | strikeOutstanding active | strikeLate active | decide _ active =>
          exact absurd active closed
      | strikeRefused =>
          -- A commit that holds a refusal has not let go of the participants.
          exact absurd committed (h.of_isPreparing reached rfl).2.2
      | _ => exact committed

/-- A transaction that is closed is aborted or committed. -/
theorem Consistent.aborted_or_committed (h : t.Consistent) (closed : t.status ≠ .active) :
    t.status = .aborted ∨ t.status = .committed := by
  have opened := h.opened
  cases status : t.status with
  | aborted => exact .inl rfl
  | committed => exact .inr rfl
  | active => exact absurd status closed
  | inDoubt => exact absurd status opened

/-- A transaction that is closed stays so. -/
theorem Step.closed (s : t.Step now events t') (h : t.Consistent) (closed : t.status ≠ .active) :
    t'.status ≠ .active := by
  rcases h.aborted_or_committed closed with aborted | committed
  · simp [s.aborted aborted]
  · simp [s.committed h committed]

/-- A transaction that is aborted stays so through every run. -/
theorem run_aborted (aborted : t.status = .aborted) (steps : List (Instant × Action)) :
    (t.run steps).status = .aborted :=
  run_induction (motive := fun t => t.status = .aborted) (fun h s => s.aborted h) aborted steps

/-- A transaction that is committed stays so through every run. -/
theorem run_committed (h : t.Consistent) (committed : t.status = .committed)
    (steps : List (Instant × Action)) : (t.run steps).status = .committed := by
  have both : (t.run steps).Consistent ∧ (t.run steps).status = .committed :=
    run_induction (motive := fun t => t.Consistent ∧ t.status = .committed)
      (fun h s => ⟨h.1.step s, s.committed h.1 h.2⟩) ⟨h, committed⟩ steps
  exact both.2

/-! ## What a commit returns -/

/-- What a commit returns tells the status: it succeeds only for a committed transaction, and an
error is for one that is aborted, or for one that was committed before. -/
def Explains (t : Transaction) : Except Aborted Unit → Prop
  | .ok () => t.status = .committed
  | .error e => e.localId = t.localId ∧
      (t.status = .aborted ∨ t.status = .committed ∧ e.reason = .alreadyCommitted)

theorem ending?_of_result? {c : Call} {r : Except Aborted Unit} (hc : t.calls[i]? = some c)
    (returned : t.result? i = some r) : c.point.ending? = some r := by
  rw [result?_eq_some] at returned
  obtain ⟨c', hc', finished⟩ := Option.map_eq_some_iff.mp returned
  obtain rfl := Option.some.inj (hc.symm.trans hc')
  rw [finished]
  rfl

/-- What every commit is going to return tells the status. -/
def Explained (t : Transaction) : Prop :=
  ∀ c ∈ t.calls, c.purpose = .commit → ∀ r, c.point.ending? = some r → t.Explains r

theorem Explains.not_active {r : Except Aborted Unit} (h : t.Explains r) :
    t.status ≠ .active := by
  intro active
  cases r with
  | ok => simp [Explains, active] at h
  | error => simp [Explains, active] at h

/-- A step keeps the identifier. -/
theorem Step.localId_eq (s : t.Step now events t') : t'.localId = t.localId := by
  cases s with
  | issue => rw [issue_eq]
  | begin enters => cases enters <;> simp only [Transaction.strike, discount_eq]
  | move reached moves => cases moves <;> rfl
  | _ => rfl

/-- The identifier of a transaction stands. -/
theorem localId_run (t : Transaction) (steps : List (Instant × Action)) :
    (t.run steps).localId = t.localId :=
  run_induction (motive := fun t' => t'.localId = t.localId) (fun h s => s.localId_eq.trans h) rfl
    steps

/-- What told the status still does after a step. -/
theorem Explains.step {r : Except Aborted Unit} (e : t.Explains r) (h : t.Consistent)
    (s : t.Step now events t') : t'.Explains r := by
  cases r with
  | ok => exact s.committed h e
  | error a =>
      refine ⟨s.localId_eq ▸ e.1, e.2.imp s.aborted fun late => ?_⟩
      exact ⟨s.committed h late.1, late.2⟩

/-- The error of a commit that comes too late tells the status. -/
theorem Consistent.explains_refusal (h : t.Consistent) (closed : t.status ≠ .active) :
    t.Explains (.error t.refusal) := by
  refine ⟨rfl, (h.aborted_or_committed closed).imp_right fun committed => ?_⟩
  exact ⟨committed, by simp [refusal, committed]⟩

/-- What the call that moves is going to return tells the status. -/
theorem Moves.explains {p p' : Point} {votes : List Event} (m : t.Moves now p votes t₁ p')
    (h : t.Consistent) (reached : t.point? i = some p)
    (before : ∀ r, p.ending? = some r → t.Explains r) :
    ∀ r, p'.ending? = some r → t₁.Explains r := by
  intro r ending
  cases m with
  | refuse closed =>
      obtain rfl := Option.some.inj ending
      exact h.explains_refusal closed
  | strikeOutstanding | strikeLate | strikeRefused =>
      obtain rfl := Option.some.inj ending
      exact ⟨rfl, .inl rfl⟩
  | concede members closed =>
      obtain rfl := Option.some.inj ending
      have open' := (h.of_isPreparing reached rfl).2.2
      exact ⟨rfl, .inl ((h.aborted_or_committed closed).resolve_right open')⟩
  | decide =>
      obtain rfl := Option.some.inj ending
      rfl
  | wake | wakeToTell | tellNobody | tell | toldLast | tellNext => exact before r ending
  | _ => cases ending

namespace Explained

theorem step (e : t.Explained) (h : t.Consistent) (s : t.Step now events t') :
    t'.Explained := by
  have kept {r : Except Aborted Unit} (told : t.Explains r) : t'.Explains r := told.step h s
  cases s with
  | stay => exact e
  | enlist => exact e
  | issue mode =>
      intro c mem commit r ending
      rw [issue_eq] at mem
      exact kept (e c mem commit r ending)
  | begin enters =>
      intro c mem commit r ending
      rw [enters.calls_eq] at mem
      rcases List.mem_append.mp mem with old | new
      · exact kept (e c old commit r ending)
      · obtain rfl := List.mem_singleton.mp new
        cases enters with
        | commit => cases ending
        | _ => cases commit
  | @move i p p' votes t₁ reached moves =>
      apply moves.forall_calls reached
        (P := fun c => c.purpose = .commit → ∀ r, c.point.ending? = some r → t₁.Explains r)
      · intro c hc
        simpa [Call.wake] using hc
      · intro c mem commit r ending
        exact kept (e c mem commit r ending)
      · intro purpose mem commit
        exact moves.explains h reached (e _ mem commit)

end Explained

/-- What every commit returns tells the status, after every run. -/
theorem explained_run (localId : String) (sequence : Nat) (createdAt : Calendar.Timestamp)
    (started : Instant) (options : TransactionOptions) (steps : List (Instant × Action)) :
    ((create localId sequence createdAt started options).run steps).Explained := by
  have both := run_induction (motive := fun t => t.Consistent ∧ t.Explained)
    (fun h s => ⟨h.1.step s, h.2.step h.1 s⟩)
    ⟨consistent_create localId sequence createdAt started options, by simp [Explained, create]⟩
    steps
  exact both.2

end NestedWork.Transaction
