import NestedWork.Proofs.Transaction.Cause
import NestedWork.Proofs.Transaction.Timeless
import NestedWork.Proofs.Transaction.Wake

/-!
# Timeouts

A timeout strikes a transaction only by a commit that has to wait and finds the deadline passed.
The tests that a commit makes when it looks come in an order: a commit that has nothing to wait for
goes ahead before it reads the clock.

## Implementation notes

The steps of a run carry their times, and nothing is assumed of these: the clock may go back, and
whoever waits may be woken at any time. What the clock has reached is read off the step that
strikes.

Abort reasons are data, so an abort on request could name a timeout. No caller can ask for that: a
request to abort comes with words of its own or for a scope that is left. Runs are taken to be
without such requests.
-/

namespace NestedWork

/-- A request to abort that pretends to be a timeout. -/
def Purpose.feigns : Purpose → Bool
  | .abort (.timedOut _) => true
  | _ => false

@[simp] theorem Point.isCalm_wake {p : Point} (calm : p.isCalm = true) : p.wake.isCalm = true := by
  cases p <;> first | rfl | cases calm

namespace Transaction

variable {t t₁ t' : Transaction} {now : Instant} {events : List Event} {a : Action} {i : Nat}
  {ms : Int}

/-! ## The deadline -/

/-- The deadline is the start plus a positive timeout, where the clock can represent it. -/
theorem deadline_eq_some {d : Instant} : t.deadline = some d ↔
    Duration.zero < t.timeout ∧ (d.nanos : Int) = t.started.nanos + t.timeout.nanos ∧
      d ≤ Instant.latest := by
  have order : (d ≤ Instant.latest) = (d.nanos ≤ Instant.latest.nanos) := rfl
  simp only [deadline, Instant.after?, Duration.le_def, Duration.lt_def, Duration.zero, order]
  obtain ⟨d⟩ := d
  constructor
  · intro due
    split at due
    next => cases due
    next positive =>
      split at due
      next reachable =>
        obtain rfl := Instant.mk.inj (Option.some.inj due)
        exact ⟨by omega, by simp only; omega, reachable.2⟩
      next => cases due
  · rintro ⟨positive, sum, reachable⟩
    simp only at sum reachable
    rw [if_neg (by omega), if_pos (by omega)]
    congr
    omega

/-- The second of two deadlines is not later than the first, where having none is later than all. -/
def NoLater (before after : Option Instant) : Prop :=
  ∀ d, before = some d → ∃ d', after = some d' ∧ d' ≤ d

/-- A shorter timeout moves the deadline to no later time, unless it takes it away by being none. -/
theorem noLater_deadline_iff (same : t'.started = t.started) (shorter : t'.timeout ≤ t.timeout) :
    NoLater t.deadline t'.deadline ↔ t.deadline = none ∨ Duration.zero < t'.timeout := by
  constructor
  · intro sooner
    cases due : t.deadline with
    | none => exact .inl rfl
    | some d =>
        obtain ⟨d', due', -⟩ := sooner d due
        exact .inr (deadline_eq_some.mp due').1
  · rintro (none | positive)
    · intro d due
      rw [none] at due
      cases due
    · intro d due
      obtain ⟨-, sum, reachable⟩ := deadline_eq_some.mp due
      rw [Duration.le_def] at shorter
      have nonneg : 0 < t'.timeout.nanos := positive
      have earlier : t.started.nanos + t'.timeout.nanos.toNat ≤ d.nanos := by omega
      refine ⟨⟨t.started.nanos + t'.timeout.nanos.toNat⟩, deadline_eq_some.mpr ⟨positive, ?_, ?_⟩,
        earlier⟩
      · simp only [same]
        omega
      · exact Nat.le_trans earlier reachable

/-- A step lengthens no timeout. -/
theorem Step.timeout_le (s : t.Step now events t') : t'.timeout ≤ t.timeout := by
  have same : t.timeout ≤ t.timeout := Int.le_refl _
  cases s with
  | issue mode => simpa only [issue_eq] using same
  | begin enters =>
      cases enters with
      | shorten lt => exact Int.le_of_lt lt
      | forsake | release => simpa only [strike, discount_eq] using same
      | _ => exact same
  | move reached moves => cases moves <;> exact same
  | _ => exact same

theorem timeout_run_le (t : Transaction) (steps : List (Instant × Action)) :
    (t.run steps).timeout ≤ t.timeout :=
  run_induction (motive := fun t' => t'.timeout ≤ t.timeout)
    (fun h s => Int.le_trans s.timeout_le h) (Int.le_refl t.timeout.nanos) steps

/-- A step keeps the start. -/
theorem Step.started_eq (s : t.Step now events t') : t'.started = t.started := by
  cases s with
  | issue mode => rw [issue_eq]
  | begin enters => cases enters <;> first | rfl | simp only [strike, discount_eq]
  | move reached moves => cases moves <;> rfl
  | _ => rfl

theorem started_run (t : Transaction) (steps : List (Instant × Action)) :
    (t.run steps).started = t.started :=
  run_induction (motive := fun t' => t'.started = t.started) (fun h s => s.started_eq.trans h) rfl
    steps

/-! ## Commits that wait too long -/

/-- A commit has something to wait for: a dependent that holds up commits is outstanding, or another
commit has the participants in its hands. -/
def IsHeld (t : Transaction) (i : Nat) : Prop :=
  (∃ d ∈ t.dependents, d.mode = .blocking ∧ d.released = false) ∨
    ∃ (j : Nat) (c : Call), j ≠ i ∧ t.calls[j]? = some c ∧ c.purpose = .commit ∧
      c.point.isPreparing = true

/-- No dependent is outstanding that makes a commit abort. -/
def Unhurried (t : Transaction) : Prop :=
  ∀ d ∈ t.dependents, d.mode = .nonBlocking → d.released = true

/-- A commit that looks at the transaction has to wait and has waited long enough. -/
structure Overdue (t : Transaction) (now : Instant) (i : Nat) : Prop where
  looks : t.calls[i]? = some ⟨.commit, .looking⟩
  active : t.status = .active
  unhurried : t.Unhurried
  held : t.IsHeld i
  positive : Duration.zero < t.timeout
  due : (t.started.nanos : Int) + t.timeout.nanos ≤ now.nanos

/-- In a run, a commit comes to find the transaction overdue, with a timeout of so many whole
milliseconds. -/
def Expires (t : Transaction) (steps : List (Instant × Action)) (i : Nat) (ms : Int) : Prop :=
  ∃ before now after, steps = before ++ (now, .advance i) :: after ∧
    (t.run before).Overdue now i ∧ ms = (t.run before).timeout.millis

/-- A commit has returned the error of a timeout, or is going to. -/
def Reports (t : Transaction) (i : Nat) (ms : Int) : Prop :=
  ∃ (c : Call) (e : Aborted), t.calls[i]? = some c ∧ c.purpose = .commit ∧
    c.point.ending? = some (.error e) ∧ e.reason = .timedOut ms

/-- Nobody asks to abort the transaction for a timeout. -/
def Unfeigned (t : Transaction) : Prop := ∀ c ∈ t.calls, c.purpose.feigns = false

instance (t : Transaction) : Decidable t.Unfeigned :=
  inferInstanceAs (Decidable (∀ c ∈ t.calls, c.purpose.feigns = false))

theorem Expires.cons {s : Instant × Action} {rest : List (Instant × Action)}
    (h : (t.perform s.1 s.2).Expires rest i ms) : t.Expires (s :: rest) i ms := by
  obtain ⟨before, now, after, rfl, overdue⟩ := h
  exact ⟨s :: before, now, after, rfl, overdue⟩

/-- If nobody pretends a timeout in a run, nobody had before. -/
theorem Unfeigned.of_run {steps : List (Instant × Action)} (h : (t.run steps).Unfeigned) :
    t.Unfeigned := by
  intro c mem
  have kept := (t.run_purposes_prefix steps).subset (List.mem_map_of_mem mem)
  obtain ⟨d, there, same⟩ := List.mem_map.mp kept
  rw [← same]
  exact h d there

/-- The state, the counts and the calls of a transaction agree. -/
structure Coherent (t : Transaction) : Prop where
  consistent : t.Consistent
  explained : t.Explained
  reasoned : t.Reasoned
  counted : t.Counted

theorem coherent_create (localId : String) (sequence : Nat) (createdAt : Calendar.Timestamp)
    (started : Instant) (options : TransactionOptions) :
    (create localId sequence createdAt started options).Coherent where
  consistent := consistent_create ..
  explained := by simp [Explained, create]
  reasoned := reasoned_create ..
  counted := counted_create localId sequence createdAt started options

theorem Coherent.step (h : t.Coherent) (s : t.Step now events t') : t'.Coherent where
  consistent := h.consistent.step s
  explained := h.explained.step h.consistent s
  reasoned := h.reasoned.step h.consistent h.explained s
  counted := h.counted.step s

theorem Coherent.run (h : t.Coherent) (steps : List (Instant × Action)) : (t.run steps).Coherent :=
  run_induction Coherent.step h steps

/-- What a commit that looks has to wait for is shown by the counts and the flag. -/
theorem Coherent.isHeld_iff (h : t.Coherent) (looks : t.point? i = some .looking) :
    t.IsHeld i ↔ ¬ (t.blocking = 0 ∧ t.committing = false) := by
  have blocking := h.counted .blocking
  rw [count] at blocking
  constructor
  · rintro (⟨d, mem, mode, out⟩ | ⟨j, c, -, call, -, preparing⟩) ⟨idle, free⟩
    · rw [idle] at blocking
      have none := List.countP_eq_zero.mp blocking.symm d mem
      simp [Dependent.isOut, mode, out] at none
    · have busy := (h.consistent.of_isPreparing (point?_of_getElem? call) preparing).1
      rw [free] at busy
      cases busy
  · intro busy
    rcases Nat.eq_zero_or_pos t.blocking with idle | held
    · have committing : t.committing = true := by simpa [idle] using busy
      obtain ⟨j, c, call, commit, preparing⟩ := h.consistent.exists_preparing h.reasoned committing
      refine .inr ⟨j, c, ?_, call, commit, preparing⟩
      rintro rfl
      rw [point?_of_getElem? call] at looks
      rw [Option.some.inj looks] at preparing
      cases preparing
    · exact .inl (h.counted.exists_blocking held)

theorem Coherent.unhurried_iff (h : t.Coherent) : t.Unhurried ↔ t.nonBlocking = 0 := by
  have nonBlocking := h.counted .nonBlocking
  rw [count] at nonBlocking
  rw [nonBlocking, List.countP_eq_zero]
  simp [Unhurried, Dependent.isOut]

/-! ## The steps that strike -/

/-- A step after which a transaction has a timeout for its reason is the turn of a commit that finds
it overdue, unless it had that reason before or the step pretends it. -/
theorem Step.overdue (s : t.Step now events t') (h : t.Coherent) (unfeigned : t'.Unfeigned)
    (before : t.abortReason ≠ some (.timedOut ms)) (after : t'.abortReason = some (.timedOut ms)) :
    ∃ i, t.Overdue now i ∧ ms = t.timeout.millis ∧ t'.point? i ≠ some .looking := by
  cases s with
  | stay | enlist => exact absurd after before
  | issue mode =>
      rw [issue_eq] at after
      exact absurd after before
  | @begin purpose t₁ p enters =>
      have honest := unfeigned ⟨purpose, p⟩ (by simp)
      cases enters with
      | strike reason =>
          obtain rfl := Option.some.inj after
          cases honest
      | forsake => simp [strike] at after
      | release =>
          rw [discount_eq] at after
          exact absurd after before
      | _ => exact absurd after before
  | @move i p p' votes t₁ reached moves =>
      have arrived := moves.point?_eq reached
      cases moves with
      | @strikeLate d active clear busy due late =>
          obtain ⟨positive, sum, -⟩ := deadline_eq_some.mp due
          obtain ⟨⟨purpose, q⟩, call, rfl⟩ := Option.map_eq_some_iff.mp reached
          have commit := h.reasoned.undecided _ (List.mem_of_getElem? call) rfl
          obtain rfl : purpose = .commit := by simpa [Call.isCommit] using commit
          have passed : d.nanos ≤ now.nanos := late
          refine ⟨i, ⟨call, active, h.unhurried_iff.mpr clear, (h.isHeld_iff reached).mpr busy,
            positive, by omega⟩, ?_, ?_⟩
          · simpa [strike, moveTo] using after.symm
          · rw [arrived]
            simp [strike]
      | strikeOutstanding | strikeRefused => simp [strike, moveTo] at after
      | _ => exact absurd after before

/-- The same, of a step that is known. -/
theorem Coherent.overdue (h : t.Coherent) (unfeigned : (t.perform now a).Unfeigned)
    (before : t.abortReason ≠ some (.timedOut ms))
    (after : (t.perform now a).abortReason = some (.timedOut ms)) :
    ∃ i, a = .advance i ∧ t.Overdue now i ∧ ms = t.timeout.millis := by
  obtain ⟨i, overdue, inForce, moved⟩ := (t.step_perform now a).overdue h unfeigned before after
  exact ⟨i, eq_advance_of_isReady (point?_of_getElem? overdue.looks) rfl moved, overdue, inForce⟩

/-- A transaction that has a timeout for its reason after the first step of a run had it before, or
a commit found it overdue by that step. -/
theorem Coherent.exists_expires_cons (h : t.Coherent) {rest : List (Instant × Action)}
    (unfeigned : (t.run ((now, a) :: rest)).Unfeigned)
    (struck : (t.perform now a).abortReason = some (.timedOut ms)) :
    t.abortReason = some (.timedOut ms) ∨ ∃ i, t.Expires ((now, a) :: rest) i ms := by
  rw [run_cons] at unfeigned
  by_cases before : t.abortReason = some (.timedOut ms)
  · exact .inl before
  · obtain ⟨i, rfl, overdue, inForce⟩ := h.overdue unfeigned.of_run before struck
    exact .inr ⟨i, [], now, rest, rfl, overdue, inForce⟩

/-- A transaction that has a timeout for its reason had it before the run, or a commit found it
overdue in the run. -/
theorem Coherent.exists_expires (h : t.Coherent) {steps : List (Instant × Action)}
    (unfeigned : (t.run steps).Unfeigned)
    (struck : (t.run steps).abortReason = some (.timedOut ms)) :
    t.abortReason = some (.timedOut ms) ∨ ∃ i, t.Expires steps i ms := by
  induction steps generalizing t with
  | nil => exact .inl struck
  | cons s rest ih =>
      rcases ih (h.step (t.step_perform s.1 s.2)) unfeigned struck with first | ⟨i, expires⟩
      · exact h.exists_expires_cons unfeigned first
      · exact .inr ⟨i, expires.cons⟩

/-- A commit that reports a timeout after a step reported it before, or the transaction has it for
its reason. -/
theorem Coherent.reports_back (h : t.Coherent) (reports : (t.perform now a).Reports i ms) :
    t.Reports i ms ∨ (t.perform now a).abortReason = some (.timedOut ms) := by
  obtain ⟨c, e, call, commit, ending, late⟩ := reports
  have next := t.step_perform now a
  have told := (h.step next).explained c (List.mem_of_getElem? call) commit _ ending
  have aborted : (t.perform now a).status = .aborted := by
    refine told.2.resolve_right ?_
    rintro ⟨-, other⟩
    rw [late] at other
    cases other
  rcases next.blames h.reasoned aborted (point?_of_getElem? call) ending with
    ⟨p, there, early⟩ | shown
  · obtain ⟨d, hd, rfl⟩ := Option.map_eq_some_iff.mp there
    obtain ⟨c', call', same⟩ := t.exists_call_run [(now, a)] hd
    obtain rfl : c' = c := Option.some.inj (call'.symm.trans call)
    exact .inl ⟨d, e, hd, same.symm.trans commit, early, late⟩
  · exact .inr (by rw [shown, late])

/-- A commit that reports a timeout reported it before the run, or the transaction had it for its
reason, or a commit found it overdue in the run. -/
theorem Coherent.exists_expires_of_reports (h : t.Coherent) {steps : List (Instant × Action)}
    (unfeigned : (t.run steps).Unfeigned) (reports : (t.run steps).Reports i ms) :
    t.Reports i ms ∨ t.abortReason = some (.timedOut ms) ∨ ∃ j, t.Expires steps j ms := by
  induction steps generalizing t with
  | nil => exact .inl reports
  | cons s rest ih =>
      obtain ⟨now, a⟩ := s
      have next := t.step_perform now a
      have struck (shown : (t.perform now a).abortReason = some (.timedOut ms)) :
          t.abortReason = some (.timedOut ms) ∨ ∃ j, t.Expires ((now, a) :: rest) j ms :=
        h.exists_expires_cons unfeigned shown
      rcases ih (h.step next) unfeigned reports with after | shown | ⟨j, expires⟩
      · exact (h.reports_back after).imp_right struck
      · exact .inr (struck shown)
      · exact .inr (.inr ⟨j, expires.cons⟩)

/-! ## Who is never struck -/

/-- A commit that does not look or wait any more never looks again. -/
theorem Step.exists_calm (s : t.Step now events t')
    (calm : ∃ p, t.point? i = some p ∧ p.isCalm = true) :
    ∃ p, t'.point? i = some p ∧ p.isCalm = true := by
  obtain ⟨p, reached, calm⟩ := calm
  obtain ⟨c, call, rfl⟩ := Option.map_eq_some_iff.mp reached
  obtain ⟨begun, -⟩ := List.getElem?_eq_some_iff.mp call
  have begun' := Nat.lt_of_lt_of_le begun s.length_calls_le
  obtain ⟨p', there⟩ : ∃ p', t'.point? i = some p' := by simp [point?, begun']
  refine ⟨p', there, ?_⟩
  rcases s.point?_cases there with
    ⟨p, before, eq⟩ | ⟨p, votes, t₁, before, moves, -⟩ | ⟨purpose, t₁, length, -⟩
  · obtain rfl := Option.some.inj (reached.symm.trans before)
    rcases eq with rfl | rfl
    · exact calm
    · exact Point.isCalm_wake calm
  · obtain rfl := Option.some.inj (reached.symm.trans before)
    generalize c.point = p at moves calm
    cases moves <;> first | rfl | cases calm
  · omega

/-- A commit that has gone past looking and waiting never finds its transaction overdue. -/
theorem not_expires_of_calm (calm : ∃ p, t.point? i = some p ∧ p.isCalm = true)
    (steps : List (Instant × Action)) : ¬ t.Expires steps i ms := by
  rintro ⟨before, now, after, -, overdue, -⟩
  obtain ⟨p, reached, still⟩ := run_induction
    (motive := fun t => ∃ p, t.point? i = some p ∧ p.isCalm = true) (fun h s => s.exists_calm h)
    calm before
  rw [point?_of_getElem? overdue.looks] at reached
  obtain rfl := Option.some.inj reached
  cases still

/-- A transaction without a positive timeout is never overdue. -/
theorem not_expires_of_timeout_le (none : t.timeout ≤ Duration.zero)
    (steps : List (Instant × Action)) : ¬ t.Expires steps i ms := by
  rintro ⟨before, now, after, -, overdue, -⟩
  have positive := overdue.positive
  have shorter := t.timeout_run_le before
  rw [Duration.le_def] at none shorter
  rw [Duration.lt_def] at positive
  omega

/-- A commit that has nothing to wait for takes the participants, or aborts the transaction for a
dependent that must not be outstanding. It does not read the clock. -/
theorem Coherent.advance_of_not_isHeld (h : t.Coherent)
    (looks : t.calls[i]? = some ⟨.commit, .looking⟩) (active : t.status = .active)
    (free : ¬ t.IsHeld i) (now : Instant) :
    let t' := t.perform now (.advance i)
    (t.Unhurried ∧ t'.point? i = some (.gathered t.enlistments) ∧ t'.abortReason = none) ∨
      (¬ t.Unhurried ∧
        t'.point? i = some (.waking (some ⟨.rollback, t.enlistments,
          .error ⟨t.localId, .dependentOutstanding⟩⟩)) ∧
        t'.abortReason = some .dependentOutstanding) := by
  intro t'
  have reached := point?_of_getElem? looks
  obtain ⟨t₁, p', moves, eq⟩ := exists_moves_advance t now reached rfl
  have step : t' = t₁.moveTo i p' := eq
  rw [step, moves.point?_eq reached, h.unhurried_iff]
  rw [h.isHeld_iff reached, not_not] at free
  have none : t.abortReason = none := by
    rw [← Option.not_isSome_iff_eq_none, h.reasoned.reason, active]
    simp
  cases moves with
  | refuse closed => exact absurd active closed
  | strikeOutstanding _ outstanding => exact .inr ⟨Nat.ne_of_gt outstanding, rfl, rfl⟩
  | gather _ clear => exact .inl ⟨clear, rfl, none⟩
  | strikeLate _ _ busy | park _ _ busy => exact absurd free busy

/-- A commit that has nothing to wait for does not look or wait after its turn. -/
theorem Coherent.calm_of_not_isHeld (h : t.Coherent)
    (looks : t.calls[i]? = some ⟨.commit, .looking⟩) (active : t.status = .active)
    (free : ¬ t.IsHeld i) (now : Instant) :
    ∃ p, (t.perform now (.advance i)).point? i = some p ∧ p.isCalm = true := by
  rcases h.advance_of_not_isHeld looks active free now with ⟨-, reached, -⟩ | ⟨-, reached, -⟩ <;>
    exact ⟨_, reached, rfl⟩

/-- A commit that had nothing to wait for reports a timeout only if another one comes to find the
transaction overdue. -/
theorem Coherent.expires_of_not_isHeld (h : t.Coherent)
    (looks : t.calls[i]? = some ⟨.commit, .looking⟩) (active : t.status = .active)
    (free : ¬ t.IsHeld i) {after : List (Instant × Action)}
    (unfeigned : ((t.perform now (.advance i)).run after).Unfeigned)
    (reports : ((t.perform now (.advance i)).run after).Reports i ms) :
    ∃ j, j ≠ i ∧ (t.perform now (.advance i)).Expires after j ms := by
  have course := h.advance_of_not_isHeld looks active free now
  have next := h.step (t.step_perform now (.advance i))
  rcases next.exists_expires_of_reports unfeigned reports with
    ⟨c, e, call, -, ending, late⟩ | shown | ⟨j, expires⟩
  · have there := point?_of_getElem? call
    rcases course with ⟨-, reached, -⟩ | ⟨-, reached, -⟩ <;> rw [reached] at there
    · rw [← Option.some.inj there] at ending
      cases ending
    · rw [← Option.some.inj there] at ending
      obtain rfl := Except.error.inj (Option.some.inj ending)
      cases late
  · rcases course with ⟨-, -, none⟩ | ⟨-, -, other⟩
    · cases none.symm.trans shown
    · cases other.symm.trans shown
  · refine ⟨j, ?_, expires⟩
    rintro rfl
    exact not_expires_of_calm (h.calm_of_not_isHeld looks active free now) after expires

/-! ## All together -/

/-- A transaction gets a timeout for its reason only by the turn of a commit that has to wait on it
and finds it overdue, and then the reason is the timeout in force. No commit reports a timeout
unless a commit of the run came to find it so. A commit that finds the transaction active and has
nothing to wait for goes ahead at any time, unless a dependent is outstanding that must not be. It
never finds the transaction overdue after that, and reports a timeout only if another commit does. A
transaction that was opened without a positive timeout is never aborted for one. -/
theorem timeouts_strike_waiting (localId : String) (sequence : Nat)
    (createdAt : Calendar.Timestamp) (started : Instant) (options : TransactionOptions)
    (steps : List (Instant × Action)) :
    let fresh := create localId sequence createdAt started options
    (fresh.run steps).Unfeigned →
      (∀ before now a after ms, steps = before ++ (now, a) :: after →
        (fresh.run before).abortReason ≠ some (.timedOut ms) →
        ((fresh.run before).perform now a).abortReason = some (.timedOut ms) →
        ∃ i, a = .advance i ∧ (fresh.run before).Overdue now i ∧
          ms = (fresh.run before).timeout.millis) ∧
      (∀ i ms, (fresh.run steps).Reports i ms → ∃ j, fresh.Expires steps j ms) ∧
      (∀ before now i after, steps = before ++ (now, .advance i) :: after →
        let t := fresh.run before
        let t' := t.perform now (.advance i)
        t.calls[i]? = some ⟨.commit, .looking⟩ → t.status = .active → ¬ t.IsHeld i →
        (t.Unhurried → t'.point? i = some (.gathered t.enlistments)) ∧
        (∀ ms, ¬ t'.Expires after i ms) ∧
        ∀ ms, (t'.run after).Reports i ms → ∃ j, j ≠ i ∧ t'.Expires after j ms) ∧
      (options.timeout ≤ Duration.zero → ∀ ms,
        (fresh.run steps).abortReason ≠ some (.timedOut ms) ∧
        ∀ i, ¬ (fresh.run steps).Reports i ms) := by
  intro fresh unfeigned
  have coherent : fresh.Coherent := coherent_create localId sequence createdAt started options
  have reported (i : Nat) (ms : Int) (reports : (fresh.run steps).Reports i ms) :
      ∃ j, fresh.Expires steps j ms := by
    rcases coherent.exists_expires_of_reports unfeigned reports with
      ⟨c, e, call, -⟩ | shown | expires
    · simp [fresh, create] at call
    · simp [fresh, create] at shown
    · exact expires
  refine ⟨?_, reported, ?_, ?_⟩
  · rintro before now a after ms rfl struck shown
    rw [run_append, run_cons] at unfeigned
    exact (coherent.run before).overdue unfeigned.of_run struck shown
  · rintro before now i after rfl t t' looks active free
    have reasonable : t.Coherent := coherent.run before
    rw [run_append, run_cons] at unfeigned
    refine ⟨fun unhurried => ?_,
      fun ms => not_expires_of_calm (reasonable.calm_of_not_isHeld looks active free now) after,
      fun ms => reasonable.expires_of_not_isHeld looks active free unfeigned⟩
    rcases reasonable.advance_of_not_isHeld looks active free now with
      ⟨-, reached, -⟩ | ⟨hurried, -⟩
    · exact reached
    · exact absurd unhurried hurried
  · intro untimed ms
    refine ⟨fun struck => ?_, fun i reports => ?_⟩
    · rcases coherent.exists_expires unfeigned struck with shown | ⟨i, expires⟩
      · simp [fresh, create] at shown
      · exact not_expires_of_timeout_le untimed steps expires
    · obtain ⟨j, expires⟩ := reported i ms reports
      exact not_expires_of_timeout_le untimed steps expires

/-- A commit is about to look at a transaction with one participant. -/
def arriving : List (Instant × Action) := [(⟨0⟩, .enlist 7), (⟨0⟩, .begin .commit)]

/-- The commit asks the participant while a second one waits, and that one is woken after the
deadline. The first commit then hears that the participant is prepared. -/
def outwaited : List (Instant × Action) :=
  [(⟨0⟩, .advance 0), (⟨0⟩, .begin .commit), (⟨0⟩, .advance 1), (⟨6000000⟩, .rouse 1),
    (⟨6000000⟩, .advance 1), (⟨6000000⟩, .vote 0 .prepared), (⟨6000000⟩, .advance 0),
    (⟨6000000⟩, .advance 0), (⟨6000000⟩, .acknowledge 0)]

/-- The commit that waits times the transaction out. The other one had nothing to wait for, and
reports the timeout on account of the one that waits. Without a timeout nobody reports one. -/
theorem timeouts_strike_waiting_outwaited :
    let fresh := create "id" 0 ⟨0, 0⟩ ⟨0⟩ (.ofLevel .default (.ofMillis 5))
    let t := fresh.run arriving
    let t' := t.perform ⟨0⟩ (.advance 0)
    ((t'.run outwaited).Unfeigned ∧ (t'.run outwaited).abortReason = some (.timedOut 5) ∧
      (t'.run outwaited).Reports 0 5) ∧
    (fresh.run (arriving ++ (⟨0⟩, .advance 0) :: outwaited.take 4)).Overdue ⟨6000000⟩ 1 ∧
    (t'.point? 0 = some (.gathered [⟨0, 7⟩]) ∧ ∃ j, j ≠ 0 ∧ t'.Expires outwaited j 5) ∧
    ∀ ms, ((create "id" 0 ⟨0, 0⟩ ⟨0⟩ (.ofLevel .default .zero)).run outwaited).abortReason ≠
      some (.timedOut ms) := by
  intro fresh t t'
  have unfeigned : (t'.run outwaited).Unfeigned := by decide
  have returned : (t'.run outwaited).result? 0 = some (.error ⟨"id", .timedOut 5⟩) := by decide
  have reports : (t'.run outwaited).Reports 0 5 := by
    obtain ⟨c, call, finished⟩ := Option.map_eq_some_iff.mp (result?_eq_some.mp returned)
    have commit : ((t'.run outwaited).calls[0]?).map Call.purpose = some .commit := by decide
    rw [call] at commit
    exact ⟨c, _, call, Option.some.inj commit, by rw [finished]; rfl, rfl⟩
  have free : ¬ t.IsHeld 0 := by
    rintro (⟨d, given, -⟩ | ⟨j, c, other, call, -⟩)
    · cases given
    · cases j with
      | zero => exact other rfl
      | succ j => cases call
  obtain ⟨strikes, -, ahead, -⟩ :=
    timeouts_strike_waiting "id" 0 ⟨0, 0⟩ ⟨0⟩ (.ofLevel .default (.ofMillis 5))
      (arriving ++ (⟨0⟩, .advance 0) :: outwaited) (by decide)
  obtain ⟨-, -, -, untimed⟩ :=
    timeouts_strike_waiting "id" 0 ⟨0, 0⟩ ⟨0⟩ (.ofLevel .default .zero) outwaited (by decide)
  obtain ⟨i, turn, overdue, -⟩ := strikes (arriving ++ (⟨0⟩, .advance 0) :: outwaited.take 4)
    ⟨6000000⟩ (.advance 1) (outwaited.drop 5) 5 rfl (by decide) (by decide)
  obtain rfl : 1 = i := Action.advance.inj turn
  obtain ⟨gathers, -, blamed⟩ := ahead arriving ⟨0⟩ 0 outwaited rfl rfl rfl free
  exact ⟨⟨unfeigned, by decide, reports⟩, overdue,
    ⟨gathers (by rintro d ⟨⟩), blamed 5 reports⟩, fun ms => (untimed (by decide) ms).1⟩

end Transaction

end NestedWork
