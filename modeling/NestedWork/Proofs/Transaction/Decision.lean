import Mathlib.Data.List.Induction
import NestedWork.Proofs.Transaction.Abort
import NestedWork.Proofs.Transaction.Reason

/-!
# A transaction is decided once

Any number of commits may be made on one transaction: one after another, at the same time, or by a
participant that is being asked. Only one of them ever asks the participants to prepare, and at most
one succeeds: the one that made the transaction committed. Every other returns an error that tells
apart a transaction that had committed before from one that is aborted.

## Implementation notes

What a call has returned stands, and so does the fate of a transaction. What is said of the status
after a run therefore holds at the moment of the return and at any time since.

The callers that abort a transaction give a reason of their own. None of them says that the
transaction has committed, which is what `Honest` asks for.
-/

namespace NestedWork.Transaction

variable {t t₁ t' : Transaction} {now : Instant} {events votes : List Event} {i j : Nat}
  {p p' : Point} {purpose : Purpose} {a : Action}

/-- Of a list with at most one element of some kind, two of that kind have one place. -/
theorem eq_of_countP_le_one {α : Type} {l : List α} {q : α → Bool} (le : l.countP q ≤ 1) {x y : α}
    (hi : l[i]? = some x) (hj : l[j]? = some y) (first : q x = true) (second : q y = true) :
    i = j := by
  have two {i j : Nat} {x y : α} (lt : i < j) (hi : l[i]? = some x) (hj : l[j]? = some y)
      (first : q x = true) (second : q y = true) : False := by
    have early : (l.take j)[i]? = some x := by rwa [List.getElem?_take_of_lt lt]
    have front : 0 < (l.take j).countP q :=
      List.countP_pos_iff.mpr ⟨x, List.mem_of_getElem? early, first⟩
    have back : 0 < (l.drop j).countP q :=
      List.countP_pos_iff.mpr ⟨y, List.mem_of_getElem? (i := 0) (by simpa using hj), second⟩
    have sum : l.countP q = (l.take j).countP q + (l.drop j).countP q := by
      rw [← List.countP_append, List.take_append_drop]
    omega
  rcases Nat.lt_trichotomy i j with lt | eq | gt
  · exact (two lt hi hj first second).elim
  · exact eq
  · exact (two gt hj hi second first).elim

/-! ## Entering the prepare phase -/

/-- The calls that a step takes into the prepare phase. -/
def entrants (t : Transaction) (now : Instant) (a : Action) : List Nat :=
  (List.range (t.perform now a).calls.length).filter fun i =>
    ((t.perform now a).point? i).any Point.isPreparing && !(t.point? i).any Point.isPreparing

/-- The calls that a run takes into the prepare phase, in their order. -/
def entrances (t : Transaction) : List (Instant × Action) → List Nat
  | [] => []
  | s :: rest => t.entrants s.1 s.2 ++ (t.perform s.1 s.2).entrances rest

theorem mem_entrants : i ∈ t.entrants now a ↔
    (∃ p, (t.perform now a).point? i = some p ∧ p.isPreparing = true) ∧
      ∀ p, t.point? i = some p → p.isPreparing = false := by
  simp only [entrants, List.mem_filter, List.mem_range, Bool.and_eq_true, Bool.not_eq_true',
    Option.any_eq_true, Option.any_eq_false]
  constructor
  · rintro ⟨-, after, before⟩
    exact ⟨after, fun p there => by simpa using before p there⟩
  · rintro ⟨⟨p, there, preparing⟩, before⟩
    obtain ⟨c, hc, -⟩ := Option.map_eq_some_iff.mp there
    exact ⟨(List.getElem?_eq_some_iff.mp hc).1, ⟨p, there, preparing⟩,
      fun p there => by simpa using before p there⟩

/-- A call enters the prepare phase only of an active transaction that no other call prepares, and
takes it into its hands. -/
theorem committing_of_mem_entrants (mem : i ∈ t.entrants now a) :
    t.status = .active ∧ t.committing = false ∧ (t.perform now a).committing = true := by
  obtain ⟨⟨p', there, preparing⟩, before⟩ := mem_entrants.mp mem
  rcases (t.step_perform now a).point?_cases there with
    ⟨p, reached, rfl | rfl⟩ | ⟨p, votes, t₁, reached, moves, eq⟩ | ⟨purpose, t₁, -, enters, -⟩
  · rw [before _ reached] at preparing
    cases preparing
  · rw [Point.isPreparing_wake, before _ reached] at preparing
    cases preparing
  · have idle := before p reached
    rw [eq]
    cases moves with
    | gather active _ _ free => exact ⟨active, free, rfl⟩
    | askNobody | ask | hearRefusal | hearLast | hearAndAsk => cases idle
    | _ => cases preparing
  · cases enters <;> cases preparing

/-- A step takes at most one call into the prepare phase. -/
theorem length_entrants_le (h : t.Consistent) (now : Instant) (a : Action) :
    (t.entrants now a).length ≤ 1 := by
  have after := h.step (t.step_perform now a)
  have one : ((t.perform now a).calls.countP fun c => c.point.isPreparing) ≤ 1 := by
    rw [after.preparing]
    exact Bool.toNat_le _
  have same : ∀ i ∈ t.entrants now a, ∀ j ∈ t.entrants now a, i = j := by
    intro i hi j hj
    obtain ⟨⟨p, first, preparing⟩, -⟩ := mem_entrants.mp hi
    obtain ⟨⟨q, second, preparing'⟩, -⟩ := mem_entrants.mp hj
    obtain ⟨c, hc, rfl⟩ := Option.map_eq_some_iff.mp first
    obtain ⟨d, hd, rfl⟩ := Option.map_eq_some_iff.mp second
    exact eq_of_countP_le_one one hc hd preparing preparing'
  have distinct : (t.entrants now a).Nodup := List.nodup_range.filter _
  cases eq : t.entrants now a with
  | nil => simp
  | cons i rest =>
      cases rest with
      | nil => simp
      | cons j rest =>
          rw [eq] at same distinct
          have here : i = j := same i (by simp) j (by simp)
          simp [here] at distinct

/-- A transaction stays in the hands of a call until its fate is decided. -/
theorem Step.occupied (s : t.Step now events t') (h : t.Consistent)
    (late : t.committing = true ∨ t.status ≠ .active) :
    t'.committing = true ∨ t'.status ≠ .active := by
  rcases late with committing | closed
  · cases s with
    | stay => exact .inl committing
    | enlist => exact .inl committing
    | issue mode =>
        rw [issue_eq]
        exact .inl committing
    | begin enters =>
        cases enters with
        | strike | forsake => exact .inr (by simp [strike])
        | release =>
            rw [discount_eq]
            exact .inl committing
        | _ => exact .inl committing
    | move reached moves =>
        cases moves with
        | strikeOutstanding | strikeLate | strikeRefused => exact .inr (by simp [strike, moveTo])
        | gather => exact .inl rfl
        | concede members closed => exact .inr closed
        | decide => exact .inr (by simp [moveTo])
        | _ => exact .inl committing
  · exact .inr (s.closed h closed)

/-- Once a call prepares a transaction or its fate is decided, no call enters the prepare phase. -/
theorem entrances_eq_nil (h : t.Consistent) (late : t.committing = true ∨ t.status ≠ .active)
    (steps : List (Instant × Action)) : t.entrances steps = [] := by
  induction steps generalizing t with
  | nil => rfl
  | cons s rest ih =>
      have here : t.entrants s.1 s.2 = [] := by
        rw [List.eq_nil_iff_forall_not_mem]
        intro i mem
        obtain ⟨active, free, -⟩ := committing_of_mem_entrants mem
        rcases late with committing | closed
        · rw [free] at committing
          cases committing
        · exact closed active
      have step := t.step_perform s.1 s.2
      rw [entrances, here, List.nil_append]
      exact ih (h.step step) (step.occupied h late)

/-- At most one call ever enters the prepare phase. -/
theorem length_entrances_le (h : t.Consistent) (steps : List (Instant × Action)) :
    (t.entrances steps).length ≤ 1 := by
  induction steps generalizing t with
  | nil => simp [entrances]
  | cons s rest ih =>
      have next := h.step (t.step_perform s.1 s.2)
      rw [entrances, List.length_append]
      cases eq : t.entrants s.1 s.2 with
      | nil => simpa using ih next
      | cons i more =>
          have mem : i ∈ t.entrants s.1 s.2 := by simp [eq]
          have none := entrances_eq_nil next (.inl (committing_of_mem_entrants mem).2.2) rest
          have le := length_entrants_le h s.1 s.2
          rw [eq] at le
          simpa [none] using le

/-! ## The call that decides -/

/-- Only its own turn moves a commit that has the votes. -/
theorem eq_advance_of_voted {members : List Enlistment} {refusal : Option String}
    (voted : t.point? i = some (.voted members refusal))
    (moved : (t.perform now a).point? i ≠ some (.voted members refusal)) : a = .advance i :=
  eq_advance_of_isReady voted rfl moved

/-- A commit that is going to succeed has made the transaction committed by one of its steps. -/
theorem exists_decision {fresh : Transaction} (none : fresh.calls = [])
    (steps : List (Instant × Action)) {c : Call} (call : (fresh.run steps).calls[i]? = some c)
    (commit : c.purpose = .commit) (succeeds : c.point.ending? = some (.ok ())) :
    ∃ before now after, steps = before ++ (now, .advance i) :: after ∧
      (fresh.run before).status = .active ∧
      ((fresh.run before).perform now (.advance i)).status = .committed := by
  induction steps using List.reverseRecOn generalizing c with
  | nil => simp [none] at call
  | append_singleton before last ih =>
      have later : fresh.run (before ++ [last]) = (fresh.run before).perform last.1 last.2 := by
        rw [run_append, run_cons, run_nil]
      rw [later] at call
      have reached : ((fresh.run before).perform last.1 last.2).point? i = some c.point := by
        rw [point?, call, Option.map_some]
      have step := (fresh.run before).step_perform last.1 last.2
      -- The call was going to succeed before the last step, or the last step is the decision.
      have extend {p : Point} (there : (fresh.run before).point? i = some p)
          (ending : p.ending? = some (.ok ())) :
          ∃ earlier now after, before ++ [last] = earlier ++ (now, .advance i) :: after ∧
            (fresh.run earlier).status = .active ∧
            ((fresh.run earlier).perform now (.advance i)).status = .committed := by
        obtain ⟨d, hd, rfl⟩ := Option.map_eq_some_iff.mp there
        obtain ⟨c', hc', kept⟩ := (fresh.run before).exists_call_run [last] hd
        obtain rfl : c' = c := Option.some.inj (hc'.symm.trans call)
        obtain ⟨earlier, now, after, rfl, decision⟩ := ih hd (kept.symm.trans commit) ending
        exact ⟨earlier, now, after ++ [last], by simp, decision⟩
      obtain ⟨purpose, p'⟩ := c
      rcases step.point?_cases reached with
        ⟨p, there, rfl | rfl⟩ | ⟨p, votes, t₁, there, moves, eq⟩ | ⟨purpose', t₁, rfl, enters, eq⟩
      · exact extend there succeeds
      · exact extend there (by simpa using succeeds)
      · cases moves with
        | decide members active =>
            obtain ⟨now, a⟩ := last
            have left' : ((fresh.run before).perform now a).point? i ≠
                some (.voted members .none) := by simp [reached]
            obtain rfl : a = .advance i := eq_advance_of_voted there left'
            exact ⟨before, now, [], rfl, active, by rw [eq]; rfl⟩
        | wake => exact extend there rfl
        | wakeToTell | tellNobody | tell | toldLast | tellNext => exact extend there succeeds
        | _ => cases succeeds
      · rw [eq, enters.calls_eq] at call
        obtain rfl : purpose' = purpose := by simpa using call
        obtain rfl : purpose' = .commit := commit
        cases enters
        cases succeeds

/-! ## The reasons that commits return -/

/-- Nobody asks to abort the transaction for having committed. -/
def Honest (t : Transaction) : Prop := ∀ c ∈ t.calls, c.purpose ≠ .abort .alreadyCommitted

instance (t : Transaction) : Decidable t.Honest :=
  inferInstanceAs (Decidable (∀ c ∈ t.calls, c.purpose ≠ .abort .alreadyCommitted))

/-- An honest transaction was honest before. -/
theorem Step.honest_back (s : t.Step now events t') (honest : t'.Honest) : t.Honest := by
  intro c mem
  have mem' : c.purpose ∈ t'.calls.map Call.purpose :=
    s.purposes_prefix.subset (List.mem_map_of_mem mem)
  obtain ⟨d, there, same⟩ := List.mem_map.mp mem'
  rw [← same]
  exact honest d there

/-- A transaction is not aborted for having committed, and no commit returns that as its reason
unless it is so. -/
structure Candid (t : Transaction) : Prop where
  reason : t.abortReason ≠ some .alreadyCommitted
  error : ∀ c ∈ t.calls, c.purpose = .commit → ∀ e, c.point.ending? = some (.error e) →
    e.reason = .alreadyCommitted → t.status = .committed

theorem candid_create (localId : String) (sequence : Nat) (createdAt : Calendar.Timestamp)
    (started : Instant) (options : TransactionOptions) :
    (create localId sequence createdAt started options).Candid where
  reason := by simp [create]
  error := by simp [create]

namespace Candid

/-- The error of a commit that finds its transaction aborted does not say that it has committed. -/
theorem reason_getD_ne (h : t.Candid) {other : AbortReason} (ne : other ≠ .alreadyCommitted) :
    t.abortReason.getD other ≠ .alreadyCommitted := by
  have reason := h.reason
  cases eq : t.abortReason with
  | none => exact ne
  | some r => simpa [eq] using reason

theorem begin (h : t.Candid) (enters : t.Enters purpose t₁ p)
    (honest : purpose ≠ .abort .alreadyCommitted) (told : t.Explained) :
    Candid { t₁ with calls := t₁.calls ++ [⟨purpose, p⟩] } where
  reason := by
    have reason := h.reason
    cases enters with
    | strike r => simpa [strike] using honest
    | forsake => simp [strike]
    | release => simpa [discount_eq] using reason
    | _ => exact reason
  error := by
    intro c mem commit e ending late
    rw [enters.calls_eq] at mem
    rcases List.mem_append.mp mem with old | new
    · have before := h.error c old commit e ending late
      have closed := (told c old commit _ ending).not_active
      cases enters with
      | strike _ active | forsake _ _ active => exact absurd active closed
      | release => simpa [discount_eq] using before
      | _ => exact before
    · obtain rfl := List.mem_singleton.mp new
      cases enters with
      | commit => cases ending
      | _ => cases commit

theorem move (h : t.Candid) (reached : t.point? i = some p) (moves : t.Moves now p votes t₁ p')
    (consistent : t.Consistent) : (t₁.moveTo i p').Candid where
  reason := by
    have reason := h.reason
    cases moves with
    | strikeOutstanding | strikeLate | strikeRefused => simp [strike, moveTo]
    | _ => exact reason
  error := by
    apply moves.forall_calls reached (P := fun c => c.purpose = .commit → ∀ e,
      c.point.ending? = some (.error e) → e.reason = .alreadyCommitted → t₁.status = .committed)
    · intro c hc commit e ending
      exact hc commit e (by simpa [Call.wake] using ending)
    · intro c mem commit e ending late
      have before := h.error c mem commit e ending late
      cases moves with
      | strikeOutstanding active | strikeLate active =>
          rw [before] at active
          cases active
      | strikeRefused => exact absurd before (consistent.of_isPreparing reached rfl).2.2
      | decide => rfl
      | _ => exact before
    · intro purpose mem commit e ending late
      cases moves with
      | refuse closed =>
          obtain rfl := Except.error.inj (Option.some.inj ending)
          refine (consistent.aborted_or_committed closed).resolve_left fun aborted => ?_
          have ne : AbortReason.notActive ≠ .alreadyCommitted := by simp [AbortReason.notActive]
          exact h.reason_getD_ne ne (by simpa [refusal, aborted] using late)
      | concede =>
          obtain rfl := Except.error.inj (Option.some.inj ending)
          exact absurd late (h.reason_getD_ne (by simp))
      | strikeOutstanding | strikeLate | strikeRefused =>
          obtain rfl := Except.error.inj (Option.some.inj ending)
          cases late
      | wakeToTell | tellNobody | tell | toldLast | tellNext =>
          exact h.error _ mem commit e ending late
      | _ => cases ending

/-- Every step of an honest transaction keeps it candid. -/
theorem step (h : t.Candid) (s : t.Step now events t') (honest : t'.Honest)
    (consistent : t.Consistent) (told : t.Explained) : t'.Candid := by
  cases s with
  | stay => exact h
  | enlist => exact { h with }
  | issue mode =>
      rw [issue_eq]
      exact { h with }
  | begin enters =>
      exact h.begin enters (honest _ (List.mem_append_right _ (List.mem_singleton_self _))) told
  | move reached moves => exact h.move reached moves consistent

end Candid

/-- A transaction that is honest after a run is candid. -/
theorem candid_run (localId : String) (sequence : Nat) (createdAt : Calendar.Timestamp)
    (started : Instant) (options : TransactionOptions) (steps : List (Instant × Action))
    (honest : ((create localId sequence createdAt started options).run steps).Honest) :
    ((create localId sequence createdAt started options).run steps).Candid := by
  have all := run_induction
    (motive := fun t => t.Consistent ∧ t.Explained ∧ (t.Honest → t.Candid))
    (fun h s => ⟨h.1.step s, h.2.1.step h.1 s, fun honest =>
      (h.2.2 (s.honest_back honest)).step s honest h.1 h.2.1⟩)
    ⟨consistent_create localId sequence createdAt started options, by simp [Explained, create],
      fun _ => candid_create localId sequence createdAt started options⟩ steps
  exact all.2.2 honest

/-! ## All together -/

/-- Of all commits on a transaction, at most one ever asks the participants to prepare. At most one
succeeds, and one of its steps has made the transaction committed. Every other returns an error that
names the transaction, with the reason that it had committed if it is committed, and with another
one if it is aborted. A transaction has a reason to be aborted exactly if it is. -/
theorem decided_once (localId : String) (sequence : Nat) (createdAt : Calendar.Timestamp)
    (started : Instant) (options : TransactionOptions) (steps : List (Instant × Action)) :
    let fresh := create localId sequence createdAt started options
    let t := fresh.run steps
    t.Honest →
      (fresh.entrances steps).length ≤ 1 ∧
      (∀ i c, t.calls[i]? = some c → c.purpose = .commit → t.result? i = some (.ok ()) →
        (∃ before now after, steps = before ++ (now, .advance i) :: after ∧
          (fresh.run before).status = .active ∧
          ((fresh.run before).perform now (.advance i)).status = .committed) ∧
        ∀ j d, t.calls[j]? = some d → d.purpose = .commit → t.result? j = some (.ok ()) → j = i) ∧
      (∀ i c e, t.calls[i]? = some c → c.purpose = .commit → t.result? i = some (.error e) →
        e.localId = localId ∧
          t.status = if e.reason = .alreadyCommitted then .committed else .aborted) ∧
      (t.abortReason.isSome ↔ t.status = .aborted) := by
  intro fresh t honest
  have start : fresh.Consistent := consistent_create ..
  have reasoned : t.Reasoned := reasoned_run localId sequence createdAt started options steps
  have explained : t.Explained := explained_run localId sequence createdAt started options steps
  have candid : t.Candid := candid_run localId sequence createdAt started options steps honest
  have named : t.localId = localId := localId_run fresh steps
  refine ⟨length_entrances_le start steps, ?_, ?_, reasoned.reason⟩
  · intro i c call commit returned
    have ending := ending?_of_result? call returned
    refine ⟨exists_decision rfl steps call commit ending, ?_⟩
    intro j d other commit' returned'
    have one : t.calls.countP Call.succeeds ≤ 1 := by
      rw [reasoned.awarded]
      split <;> simp
    have ending' := ending?_of_result? other returned'
    exact eq_of_countP_le_one one other call (by simp [Call.succeeds, Call.isCommit, *])
      (by simp [Call.succeeds, Call.isCommit, *])
  · intro i c e call commit returned
    have mem := List.mem_of_getElem? call
    have ending := ending?_of_result? call returned
    obtain ⟨names, fate⟩ := explained c mem commit _ ending
    refine ⟨names.trans named, ?_⟩
    split
    next late => exact candid.error c mem commit e ending late
    next other => exact fate.resolve_right fun late => other late.2

/-- Two commits on one transaction, the second of which comes while the first has the
participants in its hands. -/
def contended : List (Instant × Action) :=
  [.begin .commit, .advance 0, .begin .commit, .advance 1, .advance 0, .advance 0, .advance 0,
    .advance 0, .advance 1].map fun a => (⟨0⟩, a)

/-- The first of two commits succeeds, and the second returns that it comes too late. -/
theorem decided_once_contended :
    let fresh := create "id" 0 ⟨0, 0⟩ ⟨0⟩ .default
    let t := fresh.run contended
    t.Honest ∧ t.result? 0 = some (.ok ()) ∧
      t.result? 1 = some (.error ⟨"id", .alreadyCommitted⟩) ∧
      (fresh.entrances contended).length ≤ 1 ∧ t.status = .committed ∧
      (∀ j d, t.calls[j]? = some d → d.purpose = .commit → t.result? j = some (.ok ()) → j = 0) ∧
      (t.abortReason.isSome ↔ t.status = .aborted) := by
  intro fresh t
  have honest : t.Honest := by decide
  have first : t.result? 0 = some (.ok ()) := by decide
  have second : t.result? 1 = some (.error ⟨"id", .alreadyCommitted⟩) := by decide
  obtain ⟨entered, succeeded, failed, reason⟩ :=
    decided_once "id" 0 ⟨0, 0⟩ ⟨0⟩ .default contended honest
  exact ⟨honest, first, second, entered, (failed 1 _ _ rfl rfl second).2,
    (succeeded 0 _ rfl rfl first).2, reason⟩

end NestedWork.Transaction
