import Mathlib.Data.List.Induction
import NestedWork.Proofs.Transaction.Schedule

/-!
# Dependents at the commit

The counts of a transaction say which dependents are outstanding. A commit tests them once,
before it asks the participants to prepare, and not again when it decides. What is outstanding at
the decision is therefore what was given out in between and is not yet released.

## Implementation notes

A dependent is never removed and never outstanding again, so the number of dependents at the test
tells the ones given out before it from the ones given out after it.
-/

namespace NestedWork

/-- A dependent of a mode that is neither completed nor given up. -/
def Dependent.isOut (mode : DependentMode) (d : Dependent) : Bool := d.mode == mode && !d.released

namespace Transaction

variable {t t₁ t' : Transaction} {now : Instant} {events : List Event}

/-- The count of a mode. -/
def count (t : Transaction) : DependentMode → Nat
  | .blocking => t.blocking
  | .nonBlocking => t.nonBlocking

/-- Every count is the number of dependents of its mode that are outstanding. -/
def Counted (t : Transaction) : Prop :=
  ∀ mode, t.count mode = t.dependents.countP (Dependent.isOut mode)

theorem counted_create (localId : String) (sequence : Nat) (createdAt : Calendar.Timestamp)
    (started : Instant) (options : TransactionOptions) :
    (create localId sequence createdAt started options).Counted := by
  intro mode
  cases mode <;> rfl

namespace Counted

theorem issue (h : t.Counted) (mode : DependentMode) : (t.issue mode).Counted := by
  intro m
  have before := h m
  rw [issue_eq]
  cases m <;> cases mode <;> simp_all [count, Dependent.isOut, List.countP_append]

theorem discount (h : t.Counted) {k : Nat} {d : Dependent} (given : t.dependents[k]? = some d)
    (out : d.released = false) : (t.discount k d).Counted := by
  obtain ⟨lt, eq⟩ := List.getElem?_eq_some_iff.mp given
  intro m
  have before := h m
  rw [discount_eq]
  simp only [List.countP_set, lt, eq]
  cases m <;> cases mode : d.mode <;> simp_all [count, Dependent.isOut]

theorem step (h : t.Counted) (s : t.Step now events t') : t'.Counted := by
  cases s with
  | stay => exact h
  | enlist => exact h
  | issue mode => exact h.issue mode
  | begin enters =>
      cases enters with
      | forsake given out | release given out => exact h.discount given out
      | _ => exact h
  | move reached moves => cases moves <;> exact h

/-- Nothing is outstanding exactly if every dependent is released. -/
theorem outstanding_eq_zero_iff (h : t.Counted) :
    t.outstanding = 0 ↔ ∀ d ∈ t.dependents, d.released := by
  have blocking := h .blocking
  have nonBlocking := h .nonBlocking
  simp only [count] at blocking nonBlocking
  rw [outstanding, Nat.add_eq_zero_iff, blocking, nonBlocking, List.countP_eq_zero,
    List.countP_eq_zero]
  constructor
  · rintro ⟨first, second⟩ d mem
    have one := first d mem
    have other := second d mem
    cases mode : d.mode <;> simp_all [Dependent.isOut]
  · intro all
    constructor <;> intro d mem <;> simp [Dependent.isOut, all d mem]

end Counted

/-- The first dependents of a transaction, up to a number, are there and released. -/
def ReleasedUpTo (n : Nat) (t : Transaction) : Prop :=
  n ≤ t.dependents.length ∧ ∀ k d, k < n → t.dependents[k]? = some d → d.released

/-- Dependents that are released stay so, whatever is given out after them. -/
theorem ReleasedUpTo.step {n : Nat} (h : ReleasedUpTo n t) (s : t.Step now events t') :
    ReleasedUpTo n t' := by
  have set (k : Nat) (d : Dependent) : ReleasedUpTo n (t.discount k d) := by
    rw [discount_eq]
    refine ⟨by simpa using h.1, fun j e lt given => ?_⟩
    simp only [List.getElem?_set] at given
    split at given
    · split at given
      · obtain rfl := Option.some.inj given
        rfl
      · cases given
    · exact h.2 j e lt given
  cases s with
  | stay => exact h
  | enlist => exact h
  | issue mode =>
      rw [issue_eq]
      refine ⟨by simpa using Nat.le_succ_of_le h.1, fun k d lt given => ?_⟩
      rw [List.getElem?_append_left (Nat.lt_of_lt_of_le lt h.1)] at given
      exact h.2 k d lt given
  | begin enters =>
      cases enters with
      | forsake | release => exact set _ _
      | _ => exact h
  | move reached moves => cases moves <;> exact h

/-! ## The test and the decision -/

/-- A commit that has the participants in its hands took them at an earlier step of the run. No
dependent was outstanding there, and all that had been given out are still released. -/
theorem exists_test {fresh : Transaction} (counted : fresh.Counted)
    (idle : ∀ i p, fresh.point? i = some p → p.isPreparing = false)
    (steps : List (Instant × Action)) {i : Nat} {p : Point}
    (reached : (fresh.run steps).point? i = some p) (hp : p.isPreparing) :
    ∃ tested step during, steps = tested ++ step :: during ∧
      (fresh.run tested).point? i = some .looking ∧
      ((fresh.run tested).run [step]).point? i =
        some (.gathered (fresh.run tested).enlistments) ∧
      (fresh.run tested).outstanding = 0 ∧
      ReleasedUpTo (fresh.run tested).dependents.length (fresh.run steps) := by
  induction steps using List.reverseRecOn generalizing i p with
  | nil =>
      have quiet := idle i p reached
      rw [quiet] at hp
      cases hp
  | append_singleton before last ih =>
      have s := (fresh.run before).step_perform last.1 last.2
      have later : fresh.run (before ++ [last]) = (fresh.run before).perform last.1 last.2 := by
        rw [run_append, run_cons, run_nil]
      rw [later] at reached ⊢
      -- The commit was preparing before the last step, or the last step is the test.
      have extend {q : Point} (there : (fresh.run before).point? i = some q)
          (hq : q.isPreparing) :
          ∃ tested step during, before ++ [last] = tested ++ step :: during ∧
            (fresh.run tested).point? i = some .looking ∧
            ((fresh.run tested).run [step]).point? i =
              some (.gathered (fresh.run tested).enlistments) ∧
            (fresh.run tested).outstanding = 0 ∧
            ReleasedUpTo (fresh.run tested).dependents.length
              ((fresh.run before).perform last.1 last.2) := by
        obtain ⟨tested, step, during, rfl, looking, gathered, clear, released⟩ := ih there hq
        exact ⟨tested, step, during ++ [last], by simp, looking, gathered, clear,
          released.step s⟩
      rcases s.point?_cases reached with
        ⟨q, there, rfl | rfl⟩ | ⟨q, votes, t₁, there, moves, eq⟩ | ⟨purpose, t₁, -, enters, -⟩
      · exact extend there hp
      · exact extend there (by simpa using hp)
      · cases moves with
        | gather active clear idle free =>
            have counts : Counted (fresh.run before) := run_induction Counted.step counted before
            have none : (fresh.run before).outstanding = 0 := by simp [outstanding, clear, idle]
            refine ⟨before, last, [], rfl, there, ?_, none, ?_⟩
            · simpa [run_cons] using reached
            · have all := counts.outstanding_eq_zero_iff.mp none
              have here : ReleasedUpTo (fresh.run before).dependents.length (fresh.run before) :=
                ⟨Nat.le_refl _, fun k d _ given => all d (List.mem_of_getElem? given)⟩
              exact here.step s
        | askNobody | ask | hearRefusal | hearLast | hearAndAsk => exact extend there rfl
        | _ => simp [strike, Point.isPreparing] at hp
      · cases enters <;> simp [strike, Point.isPreparing] at hp

/-- At the step at which a transaction becomes committed, every dependent that had been given out
when the commit tested for them is released. Nothing is outstanding exactly if the ones given out
since the test, while the participants were asked to prepare, are released as well. -/
theorem outstanding_at_decision (localId : String) (sequence : Nat)
    (createdAt : Calendar.Timestamp) (started : Instant) (options : TransactionOptions)
    (steps : List (Instant × Action)) (now : Instant) (a : Action) :
    let fresh := create localId sequence createdAt started options
    let t := fresh.run steps
    let t' := t.perform now a
    t.status ≠ .committed → t'.status = .committed →
      ∃ i tested step during, steps = tested ++ step :: during ∧
        let s := fresh.run tested
        s.point? i = some .looking ∧ (s.run [step]).point? i = some (.gathered s.enlistments) ∧
        (∃ members, t.point? i = some (.voted members none)) ∧
        s.outstanding = 0 ∧
        (∀ k d, k < s.dependents.length → t'.dependents[k]? = some d → d.released) ∧
        (t'.outstanding = 0 ↔
          ∀ k d, s.dependents.length ≤ k → t'.dependents[k]? = some d → d.released) := by
  intro fresh t t' before after
  have counted : fresh.Counted := counted_create localId sequence createdAt started options
  have counts : t'.Counted := (run_induction Counted.step counted steps).step (step_perform ..)
  obtain ⟨i, members, voted, -, -⟩ := (t.step_perform now a).exists_decide before after
  obtain ⟨tested, step, during, split, looking, gathered, clear, released⟩ :=
    exists_test counted (by simp [fresh, create, point?]) steps voted rfl
  have still := released.step (t.step_perform now a)
  refine ⟨i, tested, step, during, split, looking, gathered, ⟨members, voted⟩, clear, still.2, ?_⟩
  rw [counts.outstanding_eq_zero_iff]
  constructor
  · intro all k d _ given
    exact all d (List.mem_of_getElem? given)
  · intro since d mem
    obtain ⟨k, given⟩ := List.mem_iff_getElem?.mp mem
    rcases Nat.lt_or_ge k (fresh.run tested).dependents.length with lt | ge
    · exact still.2 k d lt given
    · exact since k d ge given

/-- A participant that takes a dependent while it is asked to prepare. -/
def lateDependent : List (Instant × Action) :=
  [.enlist 7, .begin .commit, .advance 0, .advance 0, .issue .nonBlocking,
    .vote 0 .prepared].map fun a => (⟨0⟩, a)

/-- The commit goes through over a dependent that was to abort it. -/
theorem outstanding_at_decision_late :
    let fresh := create "" 0 ⟨0, 0⟩ ⟨0⟩ .default
    let t := fresh.run lateDependent
    let t' := t.perform ⟨0⟩ (.advance 0)
    t.status ≠ .committed ∧ t'.status = .committed ∧ t'.outstanding = 1 ∧
      ∃ tested, (fresh.run tested).outstanding = 0 ∧ ∃ k d,
        (fresh.run tested).dependents.length ≤ k ∧ t'.dependents[k]? = some d ∧ ¬ d.released := by
  intro fresh t t'
  have before : t.status ≠ .committed := by decide
  have after : t'.status = .committed := by decide
  have one : t'.outstanding = 1 := by decide
  obtain ⟨-, tested, -, -, -, -, -, -, clear, -, since⟩ :=
    outstanding_at_decision "" 0 ⟨0, 0⟩ ⟨0⟩ .default lateDependent ⟨0⟩ (.advance 0) before after
  refine ⟨before, after, one, tested, clear, ?_⟩
  by_contra none
  have zero : t'.outstanding = 0 := by
    apply since.mpr
    intro k d ge given
    by_contra out
    exact none ⟨k, d, ge, given, out⟩
  omega

end Transaction

end NestedWork
