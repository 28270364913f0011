import Mathlib.Data.List.Perm.Subperm
import Mathlib.Tactic.Tauto
import NestedWork.Proofs.Transaction.Step

/-!
# Runs of a transaction

A run is a list of steps with the times at which they are taken. What holds of a fresh
transaction and is kept by every step holds after every run.

## Implementation notes

Times need not increase in a run, so what is shown of runs holds for clocks of any kind, and for
the clocks of reachable transactions among them.
-/

namespace NestedWork.Transaction

variable {t t₁ t' : Transaction} {now : Instant}

/-- The transaction after a list of steps. -/
def run (t : Transaction) (steps : List (Instant × Action)) : Transaction :=
  steps.foldl (fun t s => t.perform s.1 s.2) t

/-- What a list of steps does to the participants. -/
def history (t : Transaction) : List (Instant × Action) → List Event
  | [] => []
  | s :: rest => t.events s.1 s.2 ++ (t.perform s.1 s.2).history rest

@[simp] theorem run_nil (t : Transaction) : t.run [] = t := rfl

@[simp] theorem run_cons (t : Transaction) (s : Instant × Action)
    (rest : List (Instant × Action)) :
    t.run (s :: rest) = (t.perform s.1 s.2).run rest := rfl

theorem run_append (t : Transaction) (before after : List (Instant × Action)) :
    t.run (before ++ after) = (t.run before).run after := List.foldl_append

@[simp] theorem history_nil (t : Transaction) : t.history [] = [] := rfl

@[simp] theorem history_cons (t : Transaction) (s : Instant × Action)
    (rest : List (Instant × Action)) :
    t.history (s :: rest) = t.events s.1 s.2 ++ (t.perform s.1 s.2).history rest := rfl

/-- What holds of a transaction with its history so far, and is kept by every step, holds after
every run. -/
theorem history_induction {motive : List Event → Transaction → Prop}
    (step : ∀ {past t now es t'}, motive past t → t.Step now es t' → motive (past ++ es) t')
    {past : List Event} (start : motive past t) (steps : List (Instant × Action)) :
    motive (past ++ t.history steps) (t.run steps) := by
  induction steps generalizing past t with
  | nil => simpa using start
  | cons s rest ih =>
      have next := step start (t.step_perform s.1 s.2)
      simpa only [history_cons, run_cons, List.append_assoc] using ih next

/-- What is kept by every step holds after every run. -/
theorem run_induction {motive : Transaction → Prop}
    (step : ∀ {t now es t'}, motive t → t.Step now es t' → motive t')
    (start : motive t) (steps : List (Instant × Action)) : motive (t.run steps) := by
  induction steps generalizing t with
  | nil => exact start
  | cons s rest ih => exact ih (step start (t.step_perform s.1 s.2))

/-- Every reachable transaction is reached by a run from a fresh one. -/
theorem Reachable.exists_run {options : TransactionOptions}
    (h : Reachable options now t) :
    ∃ localId sequence createdAt started steps,
      t = (Transaction.create localId sequence createdAt started options).run steps := by
  induction h with
  | create localId sequence createdAt now =>
      exact ⟨localId, sequence, createdAt, now, [], rfl⟩
  | @step now t _ a ih =>
      obtain ⟨localId, sequence, createdAt, started, steps, rfl⟩ := ih
      exact ⟨localId, sequence, createdAt, started, steps ++ [(now, a)], by
        rw [run_append, run_cons, run_nil]⟩
  | tick _ _ _ ih => exact ih

/-! ## The calls after a step -/

section Calls

variable {i : Nat} {p p' : Point} {votes : List Event}

/-- A call that has reached a point stands at its place among the calls. -/
theorem exists_calls_eq (reached : t.point? i = some p) :
    ∃ purpose, t.calls = t.calls.take i ++ ⟨purpose, p⟩ :: t.calls.drop (i + 1) ∧
      i < t.calls.length := by
  obtain ⟨⟨purpose, q⟩, hc, rfl⟩ := Option.map_eq_some_iff.mp reached
  obtain ⟨lt, hi⟩ := List.getElem?_eq_some_iff.mp hc
  refine ⟨purpose, ?_, lt⟩
  rw [← hi, ← List.drop_eq_getElem_cons lt, List.take_append_drop]

/-- A point that has been reached is the point of a call. -/
theorem exists_mem_of_point? (reached : t.point? i = some p) :
    ∃ purpose, ⟨purpose, p⟩ ∈ t.calls := by
  obtain ⟨purpose, split, -⟩ := exists_calls_eq reached
  exact ⟨purpose, by rw [split]; simp⟩

theorem modify_middle {α : Type} (before : List α) (a : α) (after : List α) (f : α → α) :
    (before ++ a :: after).modify before.length f = before ++ f a :: after := by
  rw [List.modify_eq_take_cons_drop (by simp)]
  simp

/-- The calls around one that moves: the others are kept, or those that wait are woken. -/
theorem Moves.exists_split (h : t.Moves now p votes t₁ p') (reached : t.point? i = some p) :
    ∃ before purpose after, t.calls = before ++ ⟨purpose, p⟩ :: after ∧ before.length = i ∧
      ((t₁.moveTo i p').calls = before ++ ⟨purpose, p'⟩ :: after ∨
        (t₁.moveTo i p').calls =
          before.map Call.wake ++ ⟨purpose, p'⟩ :: after.map Call.wake) := by
  obtain ⟨purpose, split, lt⟩ := exists_calls_eq reached
  have length : (t.calls.take i).length = i := by simp [Nat.min_eq_left (Nat.le_of_lt lt)]
  refine ⟨t.calls.take i, purpose, t.calls.drop (i + 1), split, length, ?_⟩
  generalize t.calls.take i = before at split length
  generalize t.calls.drop (i + 1) = after at split
  subst length
  rcases h.calls_eq with eq | eq
  · left
    simp only [moveTo, eq, split, modify_middle]
  · right
    have woken := modify_middle (before.map Call.wake) (Call.wake ⟨purpose, p⟩)
      (after.map Call.wake) fun c => { c with point := p' }
    rw [List.length_map] at woken
    simp only [moveTo, eq, split, List.map_append, List.map_cons]
    exact woken

/-- A count of calls changes by the call that moves. -/
theorem Moves.exists_countP (h : t.Moves now p votes t₁ p') (reached : t.point? i = some p)
    (q : Call → Bool) (view : ∀ c, q c.wake = q c) :
    ∃ purpose rest, ⟨purpose, p⟩ ∈ t.calls ∧
      t.calls.countP q = rest + (q ⟨purpose, p⟩).toNat ∧
      (t₁.moveTo i p').calls.countP q = rest + (q ⟨purpose, p'⟩).toNat := by
  obtain ⟨before, purpose, after, split, -, eq⟩ := h.exists_split reached
  have woken (l : List Call) : (l.map Call.wake).countP q = l.countP q := by
    rw [List.countP_map]
    exact List.countP_congr fun c _ => by simp [view]
  have one (b : Bool) : (if b = true then 1 else 0) = b.toNat := by cases b <;> rfl
  refine ⟨purpose, before.countP q + after.countP q, by simp [split], ?_, ?_⟩
  · rw [split, List.countP_append, List.countP_cons, one]
    omega
  · rcases eq with eq | eq <;> rw [eq, List.countP_append, List.countP_cons, one]
    · omega
    · rw [woken, woken]
      omega

/-- What the calls hold together changes by what the call that moves holds. -/
theorem Moves.exists_perm {α : Type} (h : t.Moves now p votes t₁ p')
    (reached : t.point? i = some p) (f : Point → List α) (view : ∀ q : Point, f q.wake = f q) :
    ∃ rest, (t.calls.flatMap fun c => f c.point).Perm (f p ++ rest) ∧
      ((t₁.moveTo i p').calls.flatMap fun c => f c.point).Perm (f p' ++ rest) := by
  obtain ⟨before, purpose, after, split, -, eq⟩ := h.exists_split reached
  have woken (l : List Call) :
      ((l.map Call.wake).flatMap fun c => f c.point) = l.flatMap fun c => f c.point := by
    simp only [List.flatMap_map, Call.wake, view]
  refine ⟨(before ++ after).flatMap fun c => f c.point, ?_, ?_⟩
  · rw [split]
    simpa using List.perm_append_comm_assoc _ _ _
  · rcases eq with eq | eq <;> rw [eq]
    · simpa using List.perm_append_comm_assoc _ _ _
    · simpa [woken] using List.perm_append_comm_assoc _ _ _

/-- What holds of every call still does, if it holds of the call that moves. -/
theorem Moves.forall_calls {P : Call → Prop} (h : t.Moves now p votes t₁ p')
    (reached : t.point? i = some p) (view : ∀ c, P c → P c.wake) (all : ∀ c ∈ t.calls, P c)
    (moved : ∀ purpose, ⟨purpose, p⟩ ∈ t.calls → P ⟨purpose, p'⟩) :
    ∀ c ∈ (t₁.moveTo i p').calls, P c := by
  obtain ⟨before, purpose, after, split, -, eq⟩ := h.exists_split reached
  have here : P ⟨purpose, p'⟩ := moved purpose (by simp [split])
  have others : ∀ c ∈ before ++ after, P c := by
    intro c mem
    apply all
    rw [split]
    simp only [List.mem_append, List.mem_cons] at mem ⊢
    tauto
  intro c mem
  rcases eq with eq | eq <;> rw [eq] at mem
  · rcases List.mem_append.mp mem with mem | mem
    · exact others c (List.mem_append_left _ mem)
    · rcases List.mem_cons.mp mem with rfl | mem
      · exact here
      · exact others c (List.mem_append_right _ mem)
  · rcases List.mem_append.mp mem with mem | mem
    · obtain ⟨c, kept, rfl⟩ := List.mem_map.mp mem
      exact view c (others c (List.mem_append_left _ kept))
    · rcases List.mem_cons.mp mem with rfl | mem
      · exact here
      · obtain ⟨c, kept, rfl⟩ := List.mem_map.mp mem
        exact view c (others c (List.mem_append_right _ kept))

/-- A call that does not move is where it was, or was woken. -/
theorem Moves.point?_of_ne {j : Nat} (h : t.Moves now p votes t₁ p') (ne : j ≠ i) :
    (t₁.moveTo j p').point? i = t.point? i ∨
      (t₁.moveTo j p').point? i = (t.point? i).map Point.wake := by
  rw [point?_moveTo, if_neg ne]
  rcases h.calls_eq with eq | eq
  · exact .inl (by simp [point?, eq])
  · exact .inr (by simp [point?, eq, Call.wake, Function.comp_def])

/-- After a step, a call is where it was, was woken, was moved, or has just begun. -/
theorem Step.point?_cases {events : List Event} (s : t.Step now events t')
    (reached : t'.point? i = some p') :
    (∃ p, t.point? i = some p ∧ (p' = p ∨ p' = p.wake)) ∨
      (∃ p votes t₁, t.point? i = some p ∧ t.Moves now p votes t₁ p' ∧ t' = t₁.moveTo i p') ∨
      (∃ purpose t₁, t.calls.length = i ∧ t.Enters purpose t₁ p' ∧
        t' = { t₁ with calls := t₁.calls ++ [⟨purpose, p'⟩] }) := by
  cases s with
  | stay => exact .inl ⟨p', reached, .inl rfl⟩
  | enlist => exact .inl ⟨p', reached, .inl rfl⟩
  | issue mode =>
      rw [issue_eq] at reached
      exact .inl ⟨p', reached, .inl rfl⟩
  | @begin purpose t₁ p enters =>
      simp only [point?, enters.calls_eq] at reached
      rcases Nat.lt_trichotomy i t.calls.length with lt | rfl | gt
      · rw [List.getElem?_append_left lt] at reached
        exact .inl ⟨p', reached, .inl rfl⟩
      · obtain rfl : p = p' := by simpa using reached
        exact .inr (.inr ⟨purpose, t₁, rfl, enters, by rw [enters.calls_eq]⟩)
      · rw [List.getElem?_eq_none (by simp; omega)] at reached
        cases reached
  | @move j p q votes t₁ there moves =>
      by_cases same : j = i
      · subst same
        obtain rfl : q = p' := by simpa [moves.point?_eq there] using reached
        exact .inr (.inl ⟨p, votes, t₁, there, moves, rfl⟩)
      · rcases moves.point?_of_ne same with eq | eq <;> rw [eq] at reached
        · exact .inl ⟨p', reached, .inl rfl⟩
        · obtain ⟨p, before, rfl⟩ := Option.map_eq_some_iff.mp reached
          exact .inl ⟨p, before, .inr rfl⟩

/-- No call is ever removed or asks for anything else. -/
theorem Step.purposes_prefix {events : List Event} (s : t.Step now events t') :
    t.calls.map Call.purpose <+: t'.calls.map Call.purpose := by
  cases s with
  | issue mode => simp [issue_eq]
  | begin enters => simp [enters.calls_eq]
  | move reached moves =>
      obtain ⟨before, purpose, after, split, -, eq | eq⟩ := moves.exists_split reached
      · simp [split, eq]
      · simp [split, eq, Call.wake, Function.comp_def]
  | _ => exact List.prefix_refl _

/-- No call is ever removed. -/
theorem Step.length_calls_le {events : List Event} (s : t.Step now events t') :
    t.calls.length ≤ t'.calls.length := by
  simpa using s.purposes_prefix.length_le

/-- No call is removed or asks for anything else in a run. -/
theorem run_purposes_prefix (t : Transaction) (steps : List (Instant × Action)) :
    t.calls.map Call.purpose <+: (t.run steps).calls.map Call.purpose :=
  run_induction (motive := fun t' => t.calls.map Call.purpose <+: t'.calls.map Call.purpose)
    (fun h s => h.trans s.purposes_prefix) (List.prefix_refl _) steps

/-- A call stays in its place in a run. -/
theorem exists_call_run (t : Transaction) (steps : List (Instant × Action)) {i : Nat} {c : Call}
    (hc : t.calls[i]? = some c) :
    ∃ c', (t.run steps).calls[i]? = some c' ∧ c'.purpose = c.purpose := by
  obtain ⟨begun, rfl⟩ := List.getElem?_eq_some_iff.mp hc
  have kept := t.run_purposes_prefix steps
  have inside := kept.length_le
  simp only [List.length_map] at inside
  have same := kept.getElem (by simpa using begun)
  simp only [List.getElem_map] at same
  exact ⟨_, List.getElem?_eq_getElem (by omega), same.symm⟩

theorem result?_eq_some {i : Nat} {r : Except Aborted Unit} :
    t.result? i = some r ↔ t.point? i = some (.finished r) := by
  unfold result?
  split
  next r' reached => simp [reached]
  next other => simpa using fun reached => other r reached

/-- What a call has returned stands. -/
theorem Step.result?_eq {events : List Event} (s : t.Step now events t') {i : Nat}
    {r : Except Aborted Unit} (returned : t.result? i = some r) : t'.result? i = some r := by
  rw [result?_eq_some] at returned ⊢
  cases s with
  | stay => exact returned
  | enlist => exact returned
  | issue mode =>
      rw [issue_eq]
      exact returned
  | begin enters =>
      obtain ⟨c, hc, eq⟩ := Option.map_eq_some_iff.mp returned
      obtain ⟨begun, -⟩ := List.getElem?_eq_some_iff.mp hc
      simp only [point?, enters.calls_eq]
      rw [List.getElem?_append_left begun]
      exact returned
  | @move j p p' votes t₁ there moves =>
      by_cases same : j = i
      · subst same
        obtain rfl := Option.some.inj (there.symm.trans returned)
        cases moves
      · rcases moves.point?_of_ne same with eq | eq <;> rw [eq, returned]
        rfl

/-- A transaction becomes committed only when a commit has heard no refusal and finds it
active. -/
theorem Step.exists_decide {events : List Event} (s : t.Step now events t')
    (before : t.status ≠ .committed) (after : t'.status = .committed) :
    ∃ i members, t.point? i = some (.voted members none) ∧ t.status = .active ∧
      t' = { t with committing := false, status := .committed, enlistments := [] }.moveTo i
        (.waking (some ⟨.commit, members, .ok ()⟩)) := by
  cases s with
  | stay => exact absurd after before
  | enlist => exact absurd after before
  | issue mode =>
      rw [issue_eq] at after
      exact absurd after before
  | begin enters =>
      cases enters with
      | strike | forsake => cases after
      | release =>
          rw [discount_eq] at after
          exact absurd after before
      | _ => exact absurd after before
  | @move i p p' votes t₁ reached moves =>
      cases moves with
      | decide members active => exact ⟨i, members, reached, active, rfl⟩
      | strikeOutstanding | strikeLate | strikeRefused => cases after
      | _ => exact absurd after before

end Calls

end NestedWork.Transaction
