import NestedWork.Proofs.Transaction.Consistent

/-!
# Where the participants of a transaction are

Every accepted participant is at one place: it was told the outcome, it is in the list, or it is
in the hands of one call. Commits move participants from the list into their hands and back, and
aborts may take the list in between, but no participant is lost or kept twice.

## Implementation notes

Places are compared by counting, so the lists are equal up to their order. What can still be asked
to prepare is bounded by what was accepted and not equal to it, since a refusal spares the rest.
-/

namespace NestedWork.Transaction

open scoped List

variable {t t₁ t' : Transaction} {now : Instant} {past events : List Event}

/-- The participants in the hands of calls. -/
def held (t : Transaction) : List Enlistment := t.calls.flatMap fun c => c.point.held

/-- The participants that calls may yet ask to prepare. -/
def unasked (t : Transaction) : List Enlistment := t.calls.flatMap fun c => c.point.unasked

/-- While the transaction is active, a commit that has participants in its hands has all that are
in any hands. -/
theorem Consistent.mem_held_of_isPreparing (h : t.Consistent) (active : t.status = .active)
    {i : Nat} {p : Point} (reached : t.point? i = some p) (hp : p.isPreparing)
    {e : Enlistment} (mem : e ∈ t.held) : e ∈ p.held := by
  obtain ⟨c, hc, he⟩ := List.mem_flatMap.mp mem
  have preparing := Point.isPreparing_of_mem_held he (h.outcome?_eq_none active hc)
  obtain ⟨purpose, split, -⟩ := exists_calls_eq reached
  have count := h.preparing
  have le := t.committing.toNat_le
  rw [split, List.countP_append, List.countP_cons, if_pos hp] at count
  rw [split, List.mem_append, List.mem_cons] at hc
  -- Among the other calls `c` would be a second one that prepares.
  have second {rest : List Call} (hc : c ∈ rest) :
      0 < rest.countP fun c => c.point.isPreparing :=
    List.countP_pos_iff.mpr ⟨c, hc, preparing⟩
  rcases hc with hc | rfl | hc
  · have pos := second hc
    omega
  · exact he
  · have pos := second hc
    omega

/-- The account of what happened to the participants of a transaction. -/
structure Ledger (past : List Event) (t : Transaction) : Prop where
  consistent : t.Consistent
  seats : (past.filterMap Event.enlisted?).map Enlistment.seat = List.range t.accepted
  conserved : (past.filterMap Event.told? ++ (t.enlistments ++ t.held)).Perm
    (past.filterMap Event.enlisted?)
  askable : (past.filterMap Event.asked? ++ (t.enlistments ++ t.unasked)).Subperm
    (past.filterMap Event.enlisted?)
  told : ∀ o e, .told o e ∈ past → t.status = o.status
  queried : ∀ c ∈ t.calls, ∀ e ∈ c.point.queried, .asked e ∈ past
  prepared : ∀ c ∈ t.calls, ∀ e ∈ c.point.prepared, .voted e .prepared ∈ past
  unanimous : t.status = .committed →
    ∀ e ∈ past.filterMap Event.enlisted?, .asked e ∈ past ∧ .voted e .prepared ∈ past

theorem ledger_create (localId : String) (sequence : Nat) (createdAt : Calendar.Timestamp)
    (started : Instant) (options : TransactionOptions) :
    Ledger [] (create localId sequence createdAt started options) where
  consistent := consistent_create ..
  seats := rfl
  conserved := .refl _
  askable := .refl _
  told := by simp
  queried := by simp [create]
  prepared := by simp [create]
  unanimous := by simp

/-! ## What one move does to the places -/

section Move

variable {i : Nat} {p p' : Point} {votes : List Event}

/-- A move accepts nobody. -/
theorem Moves.enlisted_eq (m : t.Moves now p votes t₁ p') :
    (votes ++ p'.deeds).filterMap Event.enlisted? = [] := by
  cases m <;> rfl

theorem Moves.accepted_eq (m : t.Moves now p votes t₁ p') : t₁.accepted = t.accepted := by
  cases m <;> rfl

/-- A move tells participants, puts them into the list or keeps them in the hands of the call,
and loses none. -/
theorem Moves.places_perm (m : t.Moves now p votes t₁ p')
    (emptied : p.isPreparing → t.enlistments = []) :
    ((votes ++ p'.deeds).filterMap Event.told? ++ (t₁.enlistments ++ p'.held)).Perm
      (t.enlistments ++ p.held) := by
  cases m with
  | strikeRefused | concede | decide =>
      have empty := emptied rfl
      simp [strike, Point.deeds, Point.held, empty]
  | tell | tellNext =>
      simpa [List.filterMap_cons, Point.deeds, Point.held, Event.told?] using
        List.perm_middle.symm
  | _ => simp [List.filterMap_cons, strike, wakeAll, Point.deeds, Point.held, Event.told?]

/-- A move asks only participants that could be asked, and makes none askable. -/
theorem Moves.askable_subperm (m : t.Moves now p votes t₁ p') :
    ((votes ++ p'.deeds).filterMap Event.asked? ++ (t₁.enlistments ++ p'.unasked)).Subperm
      (t.enlistments ++ p.unasked) := by
  cases m with
  | ask | hearAndAsk =>
      simpa [List.filterMap_cons, Point.deeds, Point.unasked, Event.asked?] using
        List.perm_middle.symm.subperm
  | hearRefusal =>
      simpa [List.filterMap_cons, Point.deeds, Point.unasked, Event.asked?] using
        (List.sublist_append_left _ _).subperm
  | strikeRefused | concede | decide | strikeOutstanding | strikeLate =>
      simp [strike, Point.deeds, Point.unasked]
  | _ =>
      simp [List.filterMap_cons, wakeAll, Point.deeds, Point.unasked, Event.asked?,
        List.Subperm.refl]

end Move

/-- What is put into the list may as well stand after all. -/
theorem perm_last {α : Type} (front list : List α) (a : α) (all : List α) :
    front ++ (list ++ [a] ++ all) ~ front ++ (list ++ all) ++ [a] := by
  have last : [a] ++ all ~ all ++ [a] := List.perm_append_comm
  simpa only [List.append_assoc] using (last.append_left list).append_left front

/-- What is exchanged around one call is exchanged around all of them. -/
theorem perm_around {α : Type} {told list list' one one' rest all all' : List α}
    (places : told ++ (list' ++ one') ~ list ++ one) (before : all ~ one ++ rest)
    (after : all' ~ one' ++ rest) : told ++ (list' ++ all') ~ list ++ all := by
  calc told ++ (list' ++ all')
    _ ~ told ++ (list' ++ (one' ++ rest)) := (after.append_left _).append_left _
    _ = told ++ (list' ++ one') ++ rest := by simp only [List.append_assoc]
    _ ~ list ++ one ++ rest := places.append_right rest
    _ = list ++ (one ++ rest) := List.append_assoc ..
    _ ~ list ++ all := before.symm.append_left _

/-- What is given up around one call is given up around all of them. -/
theorem subperm_around {α : Type} {asked list list' one one' rest all all' : List α}
    (places : asked ++ (list' ++ one') <+~ list ++ one) (before : all ~ one ++ rest)
    (after : all' ~ one' ++ rest) : asked ++ (list' ++ all') <+~ list ++ all := by
  have more : asked ++ (list' ++ one') ++ rest <+~ list ++ one ++ rest :=
    (List.subperm_append_right rest).mpr places
  have here : asked ++ (list' ++ all') ~ asked ++ (list' ++ one') ++ rest := by
    simpa only [List.append_assoc] using (after.append_left list').append_left asked
  have there : list ++ one ++ rest ~ list ++ all := by
    simpa only [List.append_assoc] using before.symm.append_left list
  exact (here.subperm.trans more).trans there.subperm

/-! ## Every step keeps the account -/

namespace Ledger

variable {i : Nat} {p p' : Point} {votes : List Event} {purpose : Purpose}

theorem conserved_move (l : Ledger past t) (reached : t.point? i = some p)
    (m : t.Moves now p votes t₁ p') :
    (past ++ (votes ++ p'.deeds)).filterMap Event.told? ++
        (t₁.enlistments ++ (t₁.moveTo i p').held) ~
      (past ++ (votes ++ p'.deeds)).filterMap Event.enlisted? := by
  obtain ⟨rest, before, after⟩ := m.exists_perm reached Point.held (by simp)
  have places := m.places_perm fun hp => (l.consistent.of_isPreparing reached hp).2.1
  have nobody := m.enlisted_eq
  generalize votes ++ p'.deeds = new at places nobody ⊢
  rw [List.filterMap_append, List.filterMap_append, nobody, List.append_nil, List.append_assoc]
  exact ((perm_around places before after).append_left _).trans l.conserved

theorem askable_move (l : Ledger past t) (reached : t.point? i = some p)
    (m : t.Moves now p votes t₁ p') :
    (past ++ (votes ++ p'.deeds)).filterMap Event.asked? ++
        (t₁.enlistments ++ (t₁.moveTo i p').unasked) <+~
      (past ++ (votes ++ p'.deeds)).filterMap Event.enlisted? := by
  obtain ⟨rest, before, after⟩ := m.exists_perm reached Point.unasked (by simp)
  have places := m.askable_subperm
  have nobody := m.enlisted_eq
  generalize votes ++ p'.deeds = new at places nobody ⊢
  rw [List.filterMap_append, List.filterMap_append, nobody, List.append_nil, List.append_assoc]
  have fewer := subperm_around places before after
  exact ((List.subperm_append_left _).mpr fewer).trans l.askable

/-- The outcome that a move tells is the one that the status shows. -/
theorem told_move (l : Ledger past t) (reached : t.point? i = some p)
    (m : t.Moves now p votes t₁ p') :
    ∀ o e, .told o e ∈ past ++ (votes ++ p'.deeds) → t₁.status = o.status := by
  intro o e mem
  obtain ⟨purpose, here⟩ := exists_mem_of_point? reached
  have outcome := l.consistent.outcome _ here
  rcases List.mem_append.mp mem with old | new
  · have before := l.told o e old
    cases m with
    | strikeOutstanding active | strikeLate active | decide _ active =>
        rw [active] at before
        cases o <;> cases before
    | strikeRefused =>
        have open' := (l.consistent.of_isPreparing reached rfl).2.2
        cases o with
        | commit => exact absurd before open'
        | rollback => rfl
    | _ => exact before
  · cases m with
    | tell | tellNext =>
        simp only [List.nil_append, Point.deeds, List.mem_singleton, Event.told.injEq] at new
        obtain ⟨rfl, rfl⟩ := new
        exact outcome _ rfl
    | _ => simp [strike, Point.deeds] at new

/-- A commit that hears votes has asked for them. -/
theorem queried_move (l : Ledger past t) (reached : t.point? i = some p)
    (m : t.Moves now p votes t₁ p') :
    ∀ c ∈ (t₁.moveTo i p').calls, ∀ e ∈ c.point.queried,
      .asked e ∈ past ++ (votes ++ p'.deeds) := by
  apply m.forall_calls reached
    (P := fun c => ∀ e ∈ c.point.queried, .asked e ∈ past ++ (votes ++ p'.deeds))
  · intro c hc
    simpa [Call.wake] using hc
  · intro c mem e he
    exact List.mem_append_left _ (l.queried c mem e he)
  · intro purpose mem e he
    have before := l.queried _ mem
    cases m with
    | ask first rest =>
        obtain rfl : e = first := by simpa [Point.queried] using he
        simp [Point.deeds]
    | hearAndAsk info asked current next rest =>
        rcases List.mem_append.mp he with he | he
        · exact List.mem_append_left _ (before e he)
        · obtain rfl : e = next := by simpa using he
          simp [Point.deeds]
    | hearLast => exact List.mem_append_left _ (before e he)
    | _ => simp [strike, Point.queried] at he

/-- The votes that a commit has heard are the votes that were given. -/
theorem prepared_move (l : Ledger past t) (reached : t.point? i = some p)
    (m : t.Moves now p votes t₁ p') :
    ∀ c ∈ (t₁.moveTo i p').calls, ∀ e ∈ c.point.prepared,
      .voted e .prepared ∈ past ++ (votes ++ p'.deeds) := by
  apply m.forall_calls reached
    (P := fun c => ∀ e ∈ c.point.prepared, .voted e .prepared ∈ past ++ (votes ++ p'.deeds))
  · intro c hc
    simpa [Call.wake] using hc
  · intro c mem e he
    exact List.mem_append_left _ (l.prepared c mem e he)
  · intro purpose mem e he
    have before := l.prepared _ mem
    cases m with
    | hearLast | hearAndAsk =>
        simp only [Point.prepared, List.mem_append, List.mem_singleton] at before he
        rcases he with he | rfl
        · exact List.mem_append_left _ (before e he)
        · simp
    | _ => simp [strike, Point.prepared] at he

/-- Nobody is told anything while the transaction is active. -/
theorem told_eq_nil (l : Ledger past t) (active : t.status = .active) :
    past.filterMap Event.told? = [] := by
  rw [List.filterMap_eq_nil_iff]
  intro event mem
  cases event with
  | told o e =>
      have status := l.told o e mem
      rw [active] at status
      cases o <;> cases status
  | _ => rfl

/-- A commit that is decided has heard every accepted participant. -/
theorem unanimous_move (l : Ledger past t) (reached : t.point? i = some p)
    (m : t.Moves now p votes t₁ p') (committed : t₁.status = .committed) :
    ∀ e ∈ (past ++ (votes ++ p'.deeds)).filterMap Event.enlisted?,
      .asked e ∈ past ++ (votes ++ p'.deeds) ∧
        .voted e .prepared ∈ past ++ (votes ++ p'.deeds) := by
  intro e mem
  rw [List.filterMap_append, m.enlisted_eq, List.append_nil] at mem
  suffices heard : .asked e ∈ past ∧ .voted e .prepared ∈ past from
    ⟨List.mem_append_left _ heard.1, List.mem_append_left _ heard.2⟩
  cases m with
  | decide members active =>
      obtain ⟨-, empty, -⟩ := l.consistent.of_isPreparing reached rfl
      have untold := l.told_eq_nil active
      have held : e ∈ t.held := by
        simpa [untold, empty] using l.conserved.mem_iff.mpr mem
      have member := l.consistent.mem_held_of_isPreparing active reached rfl held
      obtain ⟨purpose, here⟩ := exists_mem_of_point? reached
      exact ⟨l.queried _ here e member, l.prepared _ here e member⟩
  | strikeOutstanding | strikeLate | strikeRefused => cases committed
  | _ => exact l.unanimous committed e mem

theorem move (l : Ledger past t) (reached : t.point? i = some p)
    (m : t.Moves now p votes t₁ p') : Ledger (past ++ (votes ++ p'.deeds)) (t₁.moveTo i p') where
  consistent := l.consistent.move reached m
  seats := by
    rw [List.filterMap_append, m.enlisted_eq, List.append_nil]
    exact m.accepted_eq ▸ l.seats
  conserved := l.conserved_move reached m
  askable := l.askable_move reached m
  told := fun o e mem => l.told_move reached m o e mem
  queried := l.queried_move reached m
  prepared := l.prepared_move reached m
  unanimous := fun committed => l.unanimous_move reached m committed

theorem begin (l : Ledger past t) (e : t.Enters purpose t₁ p) :
    Ledger past { t₁ with calls := t₁.calls ++ [⟨purpose, p⟩] } where
  consistent := l.consistent.begin e
  seats := by
    rw [l.seats]
    cases e <;> simp [strike, discount_eq]
  conserved := by
    refine List.Perm.trans ?_ l.conserved
    apply List.Perm.append_left
    simp only [held, e.calls_eq, List.flatMap_append, List.flatMap_singleton]
    cases e with
    | strike | forsake => simpa [strike, discount_eq, Point.held] using List.perm_append_comm
    | release => simp [discount_eq, Point.held]
    | _ => simp [Point.held]
  askable := by
    refine List.Subperm.trans ?_ l.askable
    rw [List.subperm_append_left]
    simp only [unasked, e.calls_eq, List.flatMap_append, List.flatMap_singleton]
    cases e with
    | strike | forsake => simpa [strike, discount_eq, Point.unasked] using
        (List.sublist_append_right _ _).subperm
    | release => simp [discount_eq, Point.unasked, List.Subperm.refl]
    | _ => simp [Point.unasked, List.Subperm.refl]
  told := by
    intro o m mem
    have before := l.told o m mem
    cases e with
    | strike _ active | forsake _ _ active =>
        rw [active] at before
        cases o <;> cases before
    | release => simpa [discount_eq] using before
    | _ => exact before
  queried := by
    intro c mem m hm
    rw [e.calls_eq] at mem
    rcases List.mem_append.mp mem with old | new
    · exact l.queried c old m hm
    · obtain rfl := List.mem_singleton.mp new
      cases e <;> simp [strike, Point.queried] at hm
  prepared := by
    intro c mem m hm
    rw [e.calls_eq] at mem
    rcases List.mem_append.mp mem with old | new
    · exact l.prepared c old m hm
    · obtain rfl := List.mem_singleton.mp new
      cases e <;> simp [strike, Point.prepared] at hm
  unanimous := by
    intro committed
    cases e with
    | strike | forsake => cases committed
    | release => exact l.unanimous (by simpa [discount_eq] using committed)
    | _ => exact l.unanimous committed

/-- Accepting a participant puts it into the list. -/
theorem enlist (l : Ledger past t) (participant : Nat) (active : t.status = .active)
    (free : t.committing = false) :
    Ledger (past ++ [.enlisted ⟨t.accepted, participant⟩]) { t with
      enlistments := t.enlistments ++ [⟨t.accepted, participant⟩]
      accepted := t.accepted + 1 } where
  consistent := l.consistent.step (.enlist participant active free : t.Step ⟨0⟩ _ _)
  seats := by simp [Event.enlisted?, l.seats, List.range_succ]
  conserved := by
    have more := perm_last (past.filterMap Event.told?) t.enlistments
      ⟨t.accepted, participant⟩ t.held
    simpa [List.filterMap_cons, Event.told?, Event.enlisted?, held] using
      more.trans (l.conserved.append_right _)
  askable := by
    have more := perm_last (past.filterMap Event.asked?) t.enlistments
      ⟨t.accepted, participant⟩ t.unasked
    simpa [List.filterMap_cons, Event.asked?, Event.enlisted?, unasked] using
      more.subperm.trans ((List.subperm_append_right _).mpr l.askable)
  told := by
    intro o m mem
    exact l.told o m (by simpa using mem)
  queried := by
    intro c mem m hm
    exact List.mem_append_left _ (l.queried c mem m hm)
  prepared := by
    intro c mem m hm
    exact List.mem_append_left _ (l.prepared c mem m hm)
  unanimous := by
    intro committed
    rw [active] at committed
    cases committed

/-- Every step keeps the account. -/
theorem step (l : Ledger past t) (s : t.Step now events t') : Ledger (past ++ events) t' := by
  cases s with
  | stay => simpa using l
  | enlist participant active free => exact l.enlist participant active free
  | issue mode =>
      have consistent := l.consistent.step (.issue mode : t.Step now [] (t.issue mode))
      rw [issue_eq] at consistent
      rw [issue_eq, List.append_nil]
      exact { l with consistent }
  | begin enters => simpa using l.begin enters
  | move reached moves => exact l.move reached moves

end Ledger

/-- Every run keeps the account. -/
theorem ledger_run (localId : String) (sequence : Nat) (createdAt : Calendar.Timestamp)
    (started : Instant) (options : TransactionOptions) (steps : List (Instant × Action)) :
    let fresh := create localId sequence createdAt started options
    Ledger (fresh.history steps) (fresh.run steps) := by
  intro fresh
  have start := ledger_create localId sequence createdAt started options
  simpa using history_induction Ledger.step start steps

end NestedWork.Transaction
