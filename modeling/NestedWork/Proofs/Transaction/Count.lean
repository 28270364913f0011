import Mathlib.Data.Set.Card
import NestedWork.Proofs.Transaction.Dealing

/-!
# The counts of dependents

Whoever looks on at a run can tell from its steps alone which dependents it has given out and which
of them it has completed or given up. The counts of the transaction agree with that at every moment,
and each dependent is taken off them once, at the first call that releases it.

## Implementation notes

A dependent that is completed is let go of afterwards, which is one more call to release it. Such a
call finds it released, so what is taken off the counts is read off the counts themselves and not
off the calls.
-/

namespace NestedWork.Transaction

variable {t : Transaction} {now : Instant} {a : Action} {k : Nat} {mode : DependentMode}
  {d : Dependent}

/-- The modes of the dependents that steps give out, in their order. -/
def issuedBy (steps : List (Instant × Action)) : List DependentMode :=
  (steps.map Prod.snd).filterMap Action.issued?

/-- Steps from a fresh transaction complete a dependent or give it up, after they have given it
out. -/
def HasReleased (steps : List (Instant × Action)) (k : Nat) : Prop :=
  ∃ before now completed after, steps = before ++ (now, .begin (.release k completed)) :: after ∧
    k < (issuedBy before).length

/-- The dependent that a step takes off the counts: the one that it asks to release, if fewer are
outstanding afterwards. -/
def discharged? (t : Transaction) (now : Instant) (a : Action) : Option Nat :=
  match a with
  | .begin (.release k _) => if (t.perform now a).outstanding < t.outstanding then some k else none
  | _ => none

/-- The dependents that steps take off the counts, one after another. -/
def discharges (t : Transaction) : List (Instant × Action) → List Nat
  | [] => []
  | s :: rest => (t.discharged? s.1 s.2).toList ++ (t.perform s.1 s.2).discharges rest

theorem discharges_append (t : Transaction) (before after : List (Instant × Action)) :
    t.discharges (before ++ after) = t.discharges before ++ (t.run before).discharges after := by
  induction before generalizing t with
  | nil => rfl
  | cons s rest ih => simp [discharges, ih]

/-! ## One step -/

/-- A step releases nothing but the dependent that it asks to release. -/
theorem release_of_isReleased_perform (released : (t.perform now a).isReleased k = true) :
    t.isReleased k = true ∨
      ∃ completed, a = .begin (.release k completed) ∧ k < t.dependents.length := by
  cases meant : a.call? with
  | some i =>
      left
      rcases t.perform_of_call? now meant with eq | ⟨p, votes, t₁, p', -, moves, eq⟩
      · rwa [eq] at released
      · rw [eq] at released
        cases moves <;> exact released
  | none =>
      cases a with
      | enlist participant =>
          left
          simpa [perform, isReleased, t.enlist_getD participant] using released
      | issue mode => exact .inl (t.isReleased_issue mode k ▸ released)
      | begin purpose =>
          rcases (enters_enter t purpose).release_of_isReleased released with
            before | ⟨completed, rfl, given⟩
          · exact .inl before
          · exact .inr ⟨completed, rfl, given⟩
      | _ => cases meant

/-- A step releases a dependent that is given out exactly by beginning a call for that. -/
theorem isReleased_perform_iff : (t.perform now a).isReleased k = true ↔
    t.isReleased k = true ∨
      ∃ completed, a = .begin (.release k completed) ∧ k < t.dependents.length := by
  constructor
  · exact release_of_isReleased_perform
  · rintro (released | ⟨completed, rfl, given⟩)
    · exact (t.step_perform now a).isReleased released
    · exact isReleased_begin given now completed

/-- A dependent that is outstanding is counted. -/
theorem Counted.count_pos (h : t.Counted) (given : t.dependents[k]? = some d)
    (out : d.released = false) : 0 < t.count d.mode := by
  rw [h d.mode]
  exact List.countP_pos_iff.mpr ⟨d, List.mem_of_getElem? given, by simp [Dependent.isOut, out]⟩

theorem count_discount (t : Transaction) (k : Nat) (d : Dependent) (mode : DependentMode) :
    (t.discount k d).count mode = t.count mode - if d.mode = mode then 1 else 0 := by
  rw [discount_eq]
  cases mode <;> rfl

/-- The first call that releases a dependent takes it off the count of its mode. -/
theorem count_release (given : t.dependents[k]? = some d) (out : d.released = false)
    (now : Instant) (completed : Bool) (mode : DependentMode) :
    (t.perform now (.begin (.release k completed))).count mode =
      t.count mode - if d.mode = mode then 1 else 0 := by
  have enters := enters_enter t (.release k completed)
  suffices h : (t.enter (.release k completed)).1.count mode =
      t.count mode - if d.mode = mode then 1 else 0 by
    cases mode <;> exact h
  rw [← count_discount t k]
  generalize (t.enter (.release k completed)).1 = t₁ at enters
  generalize (t.enter (.release k completed)).2 = p at enters
  cases enters with
  | forsake given' | release given' =>
      obtain rfl := Option.some.inj (given.symm.trans given')
      cases mode <;> rfl
  | spare gone => simp [gone d given] at out

/-- A call that releases what is not outstanding returns at once and changes nothing. -/
theorem perform_release_of_gone (gone : ∀ d, t.dependents[k]? = some d → d.released = true)
    (now : Instant) (completed : Bool) :
    t.perform now (.begin (.release k completed)) =
      { t with calls := t.calls ++ [⟨.release k completed, .finished (.ok ())⟩] } := by
  simp only [perform, begin, enter, releaseDependent]
  cases given : t.dependents[k]? with
  | none => rfl
  | some d => simp [gone d given]

/-- A dependent that is given out and released is not outstanding. -/
theorem released_of_isReleased (released : t.isReleased k = true) :
    ∀ d, t.dependents[k]? = some d → d.released = true := by
  intro d given
  simpa [isReleased, given] using released

/-- The dependent that a step takes off the counts was outstanding before it. -/
theorem Counted.discharged?_eq_some (h : t.Counted) : t.discharged? now a = some k ↔
    t.isReleased k = false ∧ k < t.dependents.length ∧
      ∃ completed, a = .begin (.release k completed) := by
  constructor
  · intro taken
    unfold discharged? at taken
    split at taken
    next j completed =>
      split at taken
      next less =>
        obtain rfl := Option.some.inj taken
        have here : ∃ d, t.dependents[j]? = some d ∧ d.released = false := by
          by_contra none
          have gone (d : Dependent) (given : t.dependents[j]? = some d) : d.released = true := by
            by_contra out
            exact none ⟨d, given, Bool.not_eq_true _ ▸ out⟩
          rw [perform_release_of_gone gone] at less
          exact Nat.lt_irrefl _ less
        obtain ⟨d, given, out⟩ := here
        exact ⟨by simp [isReleased, given, out], (List.getElem?_eq_some_iff.mp given).1, _, rfl⟩
      next => cases taken
    next => cases taken
  · rintro ⟨unreleased, lt, completed, rfl⟩
    have given := List.getElem?_eq_getElem lt
    have out : t.dependents[k].released = false := by simpa [isReleased, given] using unreleased
    have counted := h.count_pos given out
    have blocking := count_release given out now completed .blocking
    have nonBlocking := count_release given out now completed .nonBlocking
    have less : (t.perform now (.begin (.release k completed))).outstanding < t.outstanding := by
      simp only [count] at blocking nonBlocking counted
      rw [outstanding, outstanding, blocking, nonBlocking]
      cases same : t.dependents[k].mode <;> simp only [same] at counted ⊢ <;> simp <;> omega
    rw [discharged?, if_pos less]

/-- As many dependents have been counted as were ever given out. -/
theorem Step.issued_eq {events : List Event} {t' : Transaction} (s : t.Step now events t')
    (all : t.issued = t.dependents.length) : t'.issued = t'.dependents.length := by
  cases s with
  | stay | enlist => exact all
  | issue mode => simp [issue_eq, all]
  | begin enters =>
      cases enters with
      | forsake | release => simpa [strike, discount_eq] using all
      | _ => exact all
  | move reached moves => cases moves <;> exact all

/-! ## A run -/

section Run

variable {fresh : Transaction}

/-- What a run has given out is what its steps have. -/
theorem modes_run_of_empty (empty : fresh.dependents = []) (steps : List (Instant × Action)) :
    (fresh.run steps).modes = issuedBy steps := by
  rw [modes_run]
  simp [modes, empty, issuedBy]

/-- What a run has released is what its steps have. -/
theorem isReleased_run_iff (empty : fresh.dependents = []) (steps : List (Instant × Action)) :
    (fresh.run steps).isReleased k = true ↔ HasReleased steps k := by
  induction steps using List.reverseRecOn with
  | nil => simp [isReleased, HasReleased, empty]
  | append_singleton steps s ih =>
      rw [run_append, run_cons, run_nil, isReleased_perform_iff, ih, ← length_modes,
        modes_run_of_empty empty]
      constructor
      · rintro (⟨before, now, completed, after, rfl, known⟩ | ⟨completed, release, known⟩)
        · exact ⟨before, now, completed, after ++ [s], by simp, known⟩
        · exact ⟨steps, s.1, completed, [], by simp [← release], known⟩
      · rintro ⟨before, now, completed, after, split, known⟩
        -- The call is the last step, or an earlier one.
        rcases List.eq_nil_or_concat after with rfl | ⟨after, last, rfl⟩
        · obtain ⟨rfl, eq⟩ := List.append_inj' split rfl
          obtain rfl := List.singleton_inj.mp eq
          exact .inr ⟨completed, rfl, known⟩
        · rw [List.concat_eq_append, ← List.cons_append, ← List.append_assoc] at split
          exact .inl ⟨before, now, completed, after, (List.append_inj' split rfl).1, known⟩

/-- Every dependent is taken off the counts once, if it is released at all. -/
theorem discharges_spec (empty : fresh.dependents = []) (counted : fresh.Counted)
    (steps : List (Instant × Action)) :
    (fresh.discharges steps).Nodup ∧ ∀ k, k ∈ fresh.discharges steps ↔ HasReleased steps k := by
  suffices h : (fresh.discharges steps).Nodup ∧
      ∀ k, k ∈ fresh.discharges steps ↔ (fresh.run steps).isReleased k = true by
    simpa only [isReleased_run_iff empty] using h
  induction steps using List.reverseRecOn with
  | nil => simp [discharges, isReleased, empty]
  | append_singleton steps s ih =>
      obtain ⟨nodup, mem⟩ := ih
      have counts : (fresh.run steps).Counted := run_induction Counted.step counted steps
      rw [discharges_append, run_append, run_cons, run_nil]
      simp only [discharges, List.append_nil]
      constructor
      · rw [List.nodup_append']
        refine ⟨nodup, by cases (fresh.run steps).discharged? s.1 s.2 <;> simp, fun k old new => ?_⟩
        have unreleased := (counts.discharged?_eq_some.mp (Option.mem_toList.mp new)).1
        rw [(mem k).mp old] at unreleased
        cases unreleased
      · intro k
        rw [List.mem_append, mem, Option.mem_toList, counts.discharged?_eq_some,
          isReleased_perform_iff]
        cases (fresh.run steps).isReleased k <;> simp [and_comm]

end Run

/-! ## The counts -/

/-- The places of a list at which something holds, counted. -/
theorem ncard_places {α : Type} (q : α → Bool) (l : List α) :
    {k : Nat | ∃ x, l[k]? = some x ∧ q x = true}.ncard = l.countP q := by
  induction l using List.reverseRecOn with
  | nil => simp
  | append_singleton l x ih =>
      have bounded : {k : Nat | ∃ x, l[k]? = some x ∧ q x = true} ⊆ {k | k < l.length} := by
        rintro k ⟨y, there, -⟩
        exact (List.getElem?_eq_some_iff.mp there).1
      have finite := (Set.finite_lt_nat l.length).subset bounded
      rw [List.countP_append, List.countP_singleton, ← ih]
      cases holds : q x with
      | false =>
          congr 1
          ext k
          simp only [Set.mem_ofPred_eq, List.getElem?_append, List.getElem?_singleton]
          grind
      | true =>
          have last : l.length ∉ {k : Nat | ∃ x, l[k]? = some x ∧ q x = true} := fun mem =>
            Nat.lt_irrefl _ (bounded mem)
          rw [if_pos rfl, ← Set.ncard_insert_of_notMem last finite]
          congr 1
          ext k
          simp only [Set.mem_ofPred_eq, Set.mem_insert_iff, List.getElem?_append,
            List.getElem?_singleton]
          grind

/-- The dependents of a mode that are given out and not released. -/
def placesOf (t : Transaction) (mode : DependentMode) : Set Nat :=
  {k | t.modes[k]? = some mode ∧ t.isReleased k = false}

theorem mem_placesOf : k ∈ t.placesOf mode ↔
    ∃ d, t.dependents[k]? = some d ∧ d.isOut mode = true := by
  cases given : t.dependents[k]? <;> simp [placesOf, modes, isReleased, given, Dependent.isOut]

theorem finite_placesOf (t : Transaction) (mode : DependentMode) : (t.placesOf mode).Finite := by
  refine (Set.finite_lt_nat t.dependents.length).subset fun k mem => ?_
  obtain ⟨d, given, -⟩ := mem_placesOf.mp mem
  exact (List.getElem?_eq_some_iff.mp given).1

/-- The count of a mode is exact. -/
theorem Counted.count_eq (h : t.Counted) (mode : DependentMode) :
    t.count mode = (t.placesOf mode).ncard := by
  rw [h mode, ← ncard_places]
  congr 1
  ext k
  exact mem_placesOf.symm

/-- All that is outstanding is outstanding in one of the two modes. -/
theorem placesOf_union (t : Transaction) : t.placesOf .blocking ∪ t.placesOf .nonBlocking =
    {k | k < t.dependents.length ∧ t.isReleased k = false} := by
  ext k
  cases given : t.dependents[k]? with
  | none => simpa [placesOf, modes, isReleased, given] using List.getElem?_eq_none_iff.mp given
  | some d =>
      obtain ⟨lt, rfl⟩ := List.getElem?_eq_some_iff.mp given
      cases mode : t.dependents[k].mode <;> simp [placesOf, modes, isReleased, mode, lt]

theorem Counted.outstanding_eq (h : t.Counted) :
    t.outstanding = {k | k < t.dependents.length ∧ t.isReleased k = false}.ncard := by
  have apart : Disjoint (t.placesOf .blocking) (t.placesOf .nonBlocking) := by
    rw [Set.disjoint_left]
    rintro k ⟨blocking, -⟩ ⟨nonBlocking, -⟩
    cases blocking.symm.trans nonBlocking
  rw [← t.placesOf_union, Set.ncard_union_eq apart (t.finite_placesOf _) (t.finite_placesOf _),
    ← h.count_eq, ← h.count_eq]
  rfl

/-- The counts of dependents are exact after every run.

What is counted as given out is all that the steps have given out. What each count holds, and what
is outstanding in all, is what they have given out and not yet completed or given up. Every
dependent that they release is taken off the counts once. The call that does so finds it counted, so
that the count of its mode goes down by one and the other stays, and any call after that changes
nothing. -/
theorem counts_exact (localId : String) (sequence : Nat) (createdAt : Calendar.Timestamp)
    (started : Instant) (options : TransactionOptions) (steps : List (Instant × Action)) :
    let fresh := create localId sequence createdAt started options
    let t := fresh.run steps
    t.issued = (issuedBy steps).length ∧
      (∀ mode, t.count mode =
        {k | (issuedBy steps)[k]? = some mode ∧ ¬ HasReleased steps k}.ncard) ∧
      t.outstanding = {k | k < (issuedBy steps).length ∧ ¬ HasReleased steps k}.ncard ∧
      ((fresh.discharges steps).Nodup ∧ ∀ k, k ∈ fresh.discharges steps ↔ HasReleased steps k) ∧
      ∀ k mode, (issuedBy steps)[k]? = some mode → ∀ now completed,
        let t' := t.perform now (.begin (.release k completed))
        (¬ HasReleased steps k →
          t.count mode = t'.count mode + 1 ∧ ∀ other ≠ mode, t'.count other = t.count other) ∧
        (HasReleased steps k →
          t' = { t with calls := t.calls ++ [⟨.release k completed, .finished (.ok ())⟩] }) := by
  intro fresh t
  have counted : fresh.Counted := counted_create localId sequence createdAt started options
  have counts : t.Counted := run_induction Counted.step counted steps
  have empty : fresh.dependents = [] := rfl
  have modes : t.modes = issuedBy steps := modes_run_of_empty empty steps
  have issued : t.issued = t.dependents.length :=
    run_induction (motive := fun t => t.issued = t.dependents.length) (fun all s => s.issued_eq all)
      rfl steps
  have unreleased (k : Nat) : t.isReleased k = false ↔ ¬ HasReleased steps k := by
    rw [← isReleased_run_iff empty steps, Bool.not_eq_true]
  refine ⟨?_, fun mode => ?_, ?_, discharges_spec empty counted steps, ?_⟩
  · rw [issued, ← length_modes, modes]
  · simp only [counts.count_eq, placesOf, modes, unreleased]
  · simp only [counts.outstanding_eq, ← length_modes, modes, unreleased]
  · intro k mode given now completed t'
    obtain ⟨d, there, rfl⟩ : ∃ d, t.dependents[k]? = some d ∧ d.mode = mode := by
      simpa [← modes, Transaction.modes] using given
    constructor
    · intro out
      have out : d.released = false := by simpa [isReleased, there] using (unreleased k).mpr out
      have counted := counts.count_pos there out
      have after := count_release there out now completed
      refine ⟨?_, fun other ne => ?_⟩
      · rw [after, if_pos rfl]
        omega
      · rw [after, if_neg (Ne.symm ne), Nat.sub_zero]
    · intro released
      have released : t.isReleased k = true := (isReleased_run_iff empty steps).mpr released
      exact perform_release_of_gone (released_of_isReleased released) now completed

/-- A dependent is completed and let go of while a commit waits for it, another is given up, and a
participant takes a third one when it is told of the rollback that follows. -/
def takenOnRollback : List (Instant × Action) :=
  [.enlist 7, .issue .blocking, .begin .commit, .advance 0, .issue .nonBlocking,
    .begin (.release 0 true), .begin (.release 0 false), .begin (.release 1 false), .advance 3,
    .advance 3, .issue .blocking, .acknowledge 3].map fun a => (⟨0⟩, a)

/-- The third dependent is counted although the transaction is closed, and is taken off the counts
when it is given up. -/
theorem counts_exact_taken_on_rollback :
    let fresh := create "" 0 ⟨0, 0⟩ ⟨0⟩ .default
    let t := fresh.run takenOnRollback
    let t' := t.perform ⟨0⟩ (.begin (.release 2 false))
    t.status = .aborted ∧ t.issued = 3 ∧ t.outstanding = 1 ∧
      {k | k < (issuedBy takenOnRollback).length ∧ ¬ HasReleased takenOnRollback k}.ncard = 1 ∧
      fresh.discharges takenOnRollback = [0, 1] ∧ HasReleased takenOnRollback 0 ∧
      ¬ HasReleased takenOnRollback 2 ∧ t.count .blocking = t'.count .blocking + 1 := by
  intro fresh t t'
  have taken : fresh.discharges takenOnRollback = [0, 1] := by decide
  have one : t.outstanding = 1 := by decide
  obtain ⟨issued, -, outstanding, ⟨-, released⟩, calls⟩ :=
    counts_exact "" 0 ⟨0, 0⟩ ⟨0⟩ .default takenOnRollback
  have out : ¬ HasReleased takenOnRollback 2 := fun gone => by
    have mem := (released 2).mpr gone
    rw [taken] at mem
    simp at mem
  have completed : HasReleased takenOnRollback 0 := (released 0).mp (taken ▸ List.mem_cons_self)
  exact ⟨by decide, issued, one, outstanding.symm.trans one, taken, completed, out,
    ((calls 2 .blocking rfl ⟨0⟩ false).1 out).1⟩

end NestedWork.Transaction
