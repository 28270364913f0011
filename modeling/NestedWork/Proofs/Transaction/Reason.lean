import NestedWork.Proofs.Transaction.Finality

/-!
# Why a transaction aborted

An aborted transaction has a reason and no other has one. A transaction is committed exactly if
one of its commits succeeds. A commit that is the only one on its transaction returns the reason
that the transaction shows.

## Implementation notes

A commit that has heard a refusal puts it in the place of an earlier reason. With several commits
on one transaction the reason may therefore change after one of them has returned, which is why the
last statement is made for a single commit.
-/

namespace NestedWork

/-- The call is a commit. -/
def Call.isCommit (c : Call) : Bool := c.purpose == .commit

/-- The call is a commit that is going to succeed. -/
def Call.succeeds (c : Call) : Bool :=
  c.isCommit && match c.point.ending? with
    | some (.ok ()) => true
    | _ => false

theorem Call.isCommit_of_succeeds {c : Call} (succeeds : c.succeeds) : c.isCommit := by
  simp only [Call.succeeds, Bool.and_eq_true] at succeeds
  exact succeeds.1

theorem Call.isCommit_eq {c c' : Call} (same : c'.purpose = c.purpose) :
    c'.isCommit = c.isCommit := by
  rw [isCommit, same, isCommit]

@[simp] theorem Call.succeeds_wake (c : Call) : c.wake.succeeds = c.succeeds := by
  simp [succeeds, wake, isCommit]

/-- A step begins a commit. -/
def Transaction.Action.isCommit : Transaction.Action → Bool
  | .begin purpose => purpose == .commit
  | _ => false

namespace Transaction

variable {t t₁ t' : Transaction} {now : Instant} {events : List Event} {i : Nat} {p p' : Point}
  {votes : List Event}

/-- The commits that were ever begun on a transaction. -/
def commits (t : Transaction) : Nat := t.calls.countP Call.isCommit

/-! ## The number of commits -/

/-- Moving a call begins no commit. -/
theorem Moves.commits_eq (m : t.Moves now p votes t₁ p') (reached : t.point? i = some p) :
    (t₁.moveTo i p').commits = t.commits := by
  obtain ⟨purpose, rest, -, before, after⟩ := m.exists_countP reached Call.isCommit (fun _ => rfl)
  rw [commits, commits, before, after]
  rfl

/-- Beginning a call begins a commit if that is asked for. -/
theorem commits_begin (t : Transaction) (purpose : Purpose) :
    (t.begin purpose).commits = t.commits + (purpose == .commit).toNat := by
  have same := (enters_enter t purpose).calls_eq
  simp only [commits, begin, same, List.countP_append]
  cases eq : purpose == .commit <;> simp [Call.isCommit, eq]

theorem commits_perform (t : Transaction) (now : Instant) (a : Action) :
    (t.perform now a).commits = t.commits + a.isCommit.toNat := by
  cases meant : a.call? with
  | some j =>
      have none : a.isCommit = false := by cases a <;> first | rfl | cases meant
      rw [none]
      by_cases served : ∃ p, t.point? j = some p ∧ a.serves j p
      · obtain ⟨p, reached, served⟩ := served
        obtain ⟨votes, t₁, p', moves, eq, -⟩ := exists_moves t now reached served
        rw [eq, moves.commits_eq reached]
        rfl
      · rw [(perform_eq_self t now meant fun p reached => by
          simpa using fun h => served ⟨p, reached, h⟩).1]
        rfl
  | none =>
      cases a with
      | enlist participant =>
          simp only [perform, enlist]
          split <;> rfl
      | issue mode =>
          rw [perform, issue_eq]
          rfl
      | begin purpose => exact t.commits_begin purpose
      | advance | vote | acknowledge | rouse => cases meant

/-- A run begins the commits that its steps begin. -/
theorem commits_run (t : Transaction) (steps : List (Instant × Action)) :
    (t.run steps).commits = t.commits + steps.countP fun s => s.2.isCommit := by
  induction steps generalizing t with
  | nil => rfl
  | cons s rest ih =>
      rw [run_cons, ih, commits_perform, List.countP_cons]
      cases s.2.isCommit with
      | true =>
          simp only [Bool.toNat_true, if_true]
          omega
      | false => simp

/-- Two different commits are two. -/
theorem one_lt_commits {c d : Call} (hc : c ∈ t.calls) (hd : d ∈ t.calls) (ne : c ≠ d)
    (first : c.isCommit) (second : d.isCommit) : 1 < t.commits := by
  have pair : [c, d].Subperm t.calls := by
    apply List.subperm_of_subset (by simp [ne])
    intro x mem
    rcases List.mem_cons.mp mem with rfl | mem
    · exact hc
    · rwa [List.mem_singleton.mp mem]
  have le := pair.countP_le Call.isCommit
  simp only [List.countP_cons, first, second, List.countP_nil, if_true] at le
  exact le

/-! ## The reason and the commits -/

/-- The status, the reason and the commits of a transaction agree. -/
structure Reasoned (t : Transaction) : Prop where
  reason : t.abortReason.isSome ↔ t.status = .aborted
  /-- Only a commit takes its time over what it returns. -/
  undecided : ∀ c ∈ t.calls, c.point.ending? = none → c.isCommit
  /-- A committed transaction has exactly one commit that succeeds, any other has none. -/
  awarded : t.calls.countP Call.succeeds = if t.status = .committed then 1 else 0
  /-- The only commit fails for the reason that is shown. -/
  blamed : t.commits ≤ 1 → ∀ c ∈ t.calls, c.isCommit → ∀ e, c.point.ending? = some (.error e) →
    t.abortReason = some e.reason

theorem reasoned_create (localId : String) (sequence : Nat) (createdAt : Calendar.Timestamp)
    (started : Instant) (options : TransactionOptions) :
    (create localId sequence createdAt started options).Reasoned where
  reason := by simp [create]
  undecided := by simp [create]
  awarded := rfl
  blamed := by simp [create]

namespace Reasoned

/-- A commit of a committed transaction has succeeded. -/
theorem exists_succeeds (h : t.Reasoned) (committed : t.status = .committed) :
    ∃ c ∈ t.calls, c.succeeds := by
  have one := h.awarded
  rw [if_pos committed] at one
  have pos : 0 < t.calls.countP Call.succeeds := by omega
  exact List.countP_pos_iff.mp pos

/-- A transaction on which no commit was begun is not committed. -/
theorem not_committed (h : t.Reasoned) (none : t.commits = 0) : t.status ≠ .committed := by
  intro committed
  obtain ⟨c, mem, succeeds⟩ := h.exists_succeeds committed
  have pos : 0 < t.commits := List.countP_pos_iff.mpr ⟨c, mem, Call.isCommit_of_succeeds succeeds⟩
  omega

/-- Beginning a call keeps a transaction reasoned. -/
theorem begin {purpose : Purpose} (h : t.Reasoned) (told : t.Explained)
    (e : t.Enters purpose t₁ p) : Reasoned { t₁ with calls := t₁.calls ++ [⟨purpose, p⟩] } where
  reason := by
    have reason := h.reason
    cases e with
    | strike | forsake => simp [strike]
    | release => simpa [discount_eq] using reason
    | _ => exact reason
  undecided := by
    intro c mem open'
    rw [e.calls_eq] at mem
    rcases List.mem_append.mp mem with old | new
    · exact h.undecided c old open'
    · obtain rfl := List.mem_singleton.mp new
      cases e with
      | commit => rfl
      | _ => cases open'
  awarded := by
    have awarded := h.awarded
    rw [List.countP_append, e.calls_eq, awarded]
    cases e with
    | strike _ active | forsake _ _ active =>
        simp [active, Transaction.strike, Call.succeeds, Call.isCommit]
    | release => simp [discount_eq, Call.succeeds, Call.isCommit]
    | _ => simp [Call.succeeds, Call.isCommit, Point.ending?]
  blamed := by
    intro sole c mem commit reason ending
    have fewer : t.commits ≤ 1 := by
      rw [commits, e.calls_eq, List.countP_append] at sole
      exact Nat.le_trans (Nat.le_add_right _ _) sole
    rw [e.calls_eq] at mem
    rcases List.mem_append.mp mem with old | new
    · have before := h.blamed fewer c old commit reason ending
      have struck : t.status ≠ .active := (told c old (by simpa [Call.isCommit] using commit) _
        ending).not_active
      cases e with
      | strike _ active | forsake _ _ active => exact absurd active struck
      | release => simpa [discount_eq] using before
      | _ => exact before
    · obtain rfl := List.mem_singleton.mp new
      cases e with
      | commit => cases ending
      | _ => cases commit

/-- A move lets a commit succeed exactly if it commits the transaction. -/
theorem awarded_move (h : t.Reasoned) (still : t.Consistent) (reached : t.point? i = some p)
    (m : t.Moves now p votes t₁ p') :
    (t₁.moveTo i p').calls.countP Call.succeeds = if t₁.status = .committed then 1 else 0 := by
  obtain ⟨purpose, rest, mem, before, after⟩ := m.exists_countP reached Call.succeeds (by simp)
  rw [after]
  rw [h.awarded] at before
  have commit := h.undecided _ mem
  cases m with
  | strikeOutstanding active | strikeLate active =>
      simp only [active, strike, Call.succeeds, Point.ending?] at before ⊢
      simpa using before.symm
  | strikeRefused =>
      have open' := (still.of_isPreparing reached rfl).2.2
      simp only [if_neg open', strike, Call.succeeds, Point.ending?] at before ⊢
      simpa using before.symm
  | decide members active =>
      have asked : (purpose == .commit) = true := commit rfl
      simp only [active, Call.succeeds, Call.isCommit, asked, Point.ending?] at before ⊢
      simpa using before.symm
  | _ => exact before.symm

/-- After a move the only commit still fails for the reason that is shown. -/
theorem blamed_move (h : t.Reasoned) (still : t.Consistent) (told : t.Explained)
    (reached : t.point? i = some p) (m : t.Moves now p votes t₁ p')
    (sole : (t₁.moveTo i p').commits ≤ 1) :
    ∀ c ∈ (t₁.moveTo i p').calls, c.isCommit → ∀ e, c.point.ending? = some (.error e) →
      t₁.abortReason = some e.reason := by
  rw [m.commits_eq reached] at sole
  have blamed := h.blamed sole
  apply m.forall_calls reached (P := fun c => c.isCommit → ∀ e,
    c.point.ending? = some (.error e) → t₁.abortReason = some e.reason)
  · intro c hc commit e ending
    exact hc commit e (by simpa [Call.wake] using ending)
  · intro c mem commit e ending
    have before := blamed c mem commit e ending
    have struck : t.status ≠ .active := (told c mem (by simpa [Call.isCommit] using commit) _
      ending).not_active
    cases m with
    | strikeOutstanding active | strikeLate active => exact absurd active struck
    | strikeRefused members why =>
        -- The commit that holds the refusal would be a second one.
        obtain ⟨purpose, there⟩ := exists_mem_of_point? reached
        have ne : c ≠ ⟨purpose, .voted members (some why)⟩ := by
          rintro rfl
          cases ending
        have two := one_lt_commits mem there ne commit (h.undecided _ there rfl)
        omega
    | _ => exact before
  · intro purpose mem commit e ending
    cases m with
    | refuse closed =>
        obtain rfl := Except.error.inj (Option.some.inj ending)
        have aborted := (still.aborted_or_committed closed).resolve_right fun committed => by
          -- Another commit has succeeded, so there are two.
          obtain ⟨c, other, succeeds⟩ := h.exists_succeeds committed
          have ne : c ≠ ⟨purpose, .looking⟩ := by
            rintro rfl
            simp [Call.succeeds, Point.ending?] at succeeds
          have two := one_lt_commits other mem ne (Call.isCommit_of_succeeds succeeds) commit
          omega
        obtain ⟨reason, shown⟩ := Option.isSome_iff_exists.mp (h.reason.mpr aborted)
        simp [refusal, aborted, shown]
    | strikeOutstanding | strikeLate | strikeRefused =>
        obtain rfl := Except.error.inj (Option.some.inj ending)
        rfl
    | concede members closed =>
        obtain rfl := Except.error.inj (Option.some.inj ending)
        have open' := (still.of_isPreparing reached rfl).2.2
        have aborted := (still.aborted_or_committed closed).resolve_right open'
        obtain ⟨reason, shown⟩ := Option.isSome_iff_exists.mp (h.reason.mpr aborted)
        simp [shown]
    | wakeToTell | tellNobody | tell | toldLast | tellNext =>
        exact blamed _ mem commit e ending
    | _ => cases ending

/-- Moving a call keeps a transaction reasoned. -/
theorem move (h : t.Reasoned) (still : t.Consistent) (told : t.Explained)
    (reached : t.point? i = some p) (m : t.Moves now p votes t₁ p') :
    (t₁.moveTo i p').Reasoned where
  reason := by
    have reason := h.reason
    have opened := still.opened
    cases m with
    | strikeOutstanding | strikeLate | strikeRefused => simp [moveTo, strike]
    | decide members active =>
        rw [active] at reason
        simpa [moveTo] using reason
    | _ => exact reason
  undecided := by
    apply m.forall_calls reached (P := fun c => c.point.ending? = none → c.isCommit)
    · intro c hc open'
      exact hc (by simpa [Call.wake] using open')
    · exact h.undecided
    · intro purpose mem open'
      have before := h.undecided _ mem
      cases m with
      | gather | park | rouse | askNobody | ask | hearRefusal | hearLast | hearAndAsk =>
          exact before rfl
      | wakeToTell | tell | tellNext => exact before open'
      | _ => cases open'
  awarded := h.awarded_move still reached m
  blamed := h.blamed_move still told reached m

/-- Every step keeps a transaction reasoned. -/
theorem step (h : t.Reasoned) (still : t.Consistent) (told : t.Explained)
    (s : t.Step now events t') : t'.Reasoned := by
  cases s with
  | stay => exact h
  | enlist => exact { h with }
  | issue mode =>
      rw [issue_eq]
      exact { h with }
  | begin enters => exact h.begin told enters
  | move reached moves => exact h.move still told reached moves

end Reasoned

/-- A transaction is reasoned after every run. -/
theorem reasoned_run (localId : String) (sequence : Nat) (createdAt : Calendar.Timestamp)
    (started : Instant) (options : TransactionOptions) (steps : List (Instant × Action)) :
    ((create localId sequence createdAt started options).run steps).Reasoned := by
  have all := run_induction (motive := fun t => t.Consistent ∧ t.Explained ∧ t.Reasoned)
    (fun h s => ⟨h.1.step s, h.2.1.step h.1 s, h.2.2.step h.1 h.2.1 s⟩)
    ⟨consistent_create localId sequence createdAt started options, by simp [Explained, create],
      reasoned_create localId sequence createdAt started options⟩ steps
  exact all.2.2

end Transaction

end NestedWork
