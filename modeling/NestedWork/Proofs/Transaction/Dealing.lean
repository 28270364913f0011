import NestedWork.Proofs.Transaction.Dependents

/-!
# Dealings with dependents

What is done with the dependents of a transaction. Some are given out, and some are completed or
given up.

## Implementation notes

Dependents and calls are only ever added, each at the end of its list. So what a run does with
dependents is what is new in both lists when it is over, and who compares two moments of a
transaction sees all of it.
-/

namespace NestedWork

/-- Something that is done with a dependent of a transaction. -/
inductive Dealing where
  | issues (dependent : Nat) (mode : DependentMode)
  | releases (dependent : Nat) (completed : Bool)
deriving DecidableEq, Repr

/-- What a call is to do with a dependent. -/
def Purpose.dealing? : Purpose → Option Dealing
  | .release k completed => some (.releases k completed)
  | _ => none

namespace Transaction

variable {t t₁ t' : Transaction} {now : Instant} {events : List Event} {i k : Nat} {a : Action}

/-- The modes of all dependents ever given out. -/
def modes (t : Transaction) : List DependentMode := t.dependents.map Dependent.mode

/-- A dependent that has been given out is completed or given up. -/
def isReleased (t : Transaction) (k : Nat) : Bool := (t.dependents[k]?).any Dependent.released

/-- The mode of the dependent that a step gives out. -/
def Action.issued? : Action → Option DependentMode
  | .issue mode => some mode
  | _ => none

/-- What a step asks for that begins a call. -/
def Action.begun? : Action → Option Purpose
  | .begin purpose => some purpose
  | _ => none

/-- What is done with dependents by steps of a transaction that has given out some already. -/
def dealingsOf (issued : Nat) (actions : List Action) : List Dealing :=
  ((actions.filterMap Action.issued?).zipIdx issued).map (fun d => .issues d.2 d.1) ++
    (actions.filterMap Action.begun?).filterMap Purpose.dealing?

/-- What was done with dependents since a transaction had given out some and some calls had been
made on it. -/
def dealingsSince (t : Transaction) (issued calls : Nat) : List Dealing :=
  (t.modes.zipIdx.drop issued).map (fun d => .issues d.2 d.1) ++
    ((t.calls.map Call.purpose).drop calls).filterMap Purpose.dealing?

@[simp] theorem length_modes (t : Transaction) : t.modes.length = t.dependents.length := by
  simp [modes]

/-! ## The lists grow at the end -/

theorem modes_discount {d : Dependent} (given : t.dependents[k]? = some d) :
    (t.discount k d).modes = t.modes := by
  obtain ⟨lt, rfl⟩ := List.getElem?_eq_some_iff.mp given
  rw [discount_eq]
  refine List.ext_getElem (by simp [modes]) fun j _ _ => ?_
  by_cases same : k = j <;> simp [modes, same]

theorem Enters.modes_eq {purpose : Purpose} {p : Point} (enters : t.Enters purpose t₁ p) :
    t₁.modes = t.modes := by
  cases enters with
  | forsake given | release given => exact modes_discount given
  | _ => rfl

/-- A step that is meant for a call does nothing, or moves it. -/
theorem perform_of_call? (t : Transaction) (now : Instant) (meant : a.call? = some i) :
    t.perform now a = t ∨ ∃ p votes t₁ p', t.point? i = some p ∧ t.Moves now p votes t₁ p' ∧
      t.perform now a = t₁.moveTo i p' := by
  by_cases served : ∃ p, t.point? i = some p ∧ a.serves i p
  · obtain ⟨p, reached, served⟩ := served
    obtain ⟨votes, t₁, p', moves, eq, -⟩ := exists_moves t now reached served
    exact .inr ⟨p, votes, t₁, p', reached, moves, eq⟩
  · exact .inl (perform_eq_self t now meant fun p reached => by
      simpa using fun h => served ⟨p, reached, h⟩).1

theorem enlist_getD (t : Transaction) (participant : Nat) :
    ((t.enlist participant).toOption.getD t).dependents = t.dependents ∧
      ((t.enlist participant).toOption.getD t).calls = t.calls := by
  unfold enlist
  split <;> exact ⟨rfl, rfl⟩

/-- A step gives out the dependent that it says, and no other. -/
theorem modes_perform (t : Transaction) (now : Instant) (a : Action) :
    (t.perform now a).modes = t.modes ++ a.issued?.toList := by
  cases meant : a.call? with
  | some i =>
      have none : a.issued? = none := by cases a <;> first | rfl | cases meant
      rw [none, Option.toList_none, List.append_nil]
      rcases t.perform_of_call? now meant with eq | ⟨p, votes, t₁, p', -, moves, eq⟩
      · rw [eq]
      · rw [eq]
        cases moves <;> rfl
  | none =>
      cases a with
      | enlist participant => simp [perform, modes, t.enlist_getD participant, Action.issued?]
      | issue mode => simp [perform, issue_eq, modes, Action.issued?]
      | begin purpose =>
          have same : (t.perform now (.begin purpose)).modes = t.modes :=
            (enters_enter t purpose).modes_eq
          simp [same, Action.issued?]
      | _ => cases meant

/-- A step begins the call that it says, and no other. -/
theorem purposes_perform (t : Transaction) (now : Instant) (a : Action) :
    (t.perform now a).calls.map Call.purpose = t.calls.map Call.purpose ++ a.begun?.toList := by
  cases meant : a.call? with
  | some i =>
      have none : a.begun? = none := by cases a <;> first | rfl | cases meant
      rw [none, Option.toList_none, List.append_nil]
      rcases t.perform_of_call? now meant with eq | ⟨p, votes, t₁, p', reached, moves, eq⟩
      · rw [eq]
      · rw [eq]
        obtain ⟨before, purpose, after, split, -, eq | eq⟩ := moves.exists_split reached
        · simp [split, eq]
        · simp [split, eq, Call.wake, Function.comp_def]
  | none =>
      cases a with
      | enlist participant => simp [perform, t.enlist_getD participant, Action.begun?]
      | issue mode => simp [perform, issue_eq, Action.begun?]
      | begin purpose =>
          simp [perform, begin, (enters_enter t purpose).calls_eq, Action.begun?]
      | _ => cases meant

theorem modes_run (t : Transaction) (steps : List (Instant × Action)) :
    (t.run steps).modes = t.modes ++ (steps.map Prod.snd).filterMap Action.issued? := by
  induction steps generalizing t with
  | nil => simp
  | cons s rest ih =>
      rw [run_cons, ih, modes_perform]
      cases h : s.2.issued? <;> simp [h]

theorem purposes_run (t : Transaction) (steps : List (Instant × Action)) :
    (t.run steps).calls.map Call.purpose =
      t.calls.map Call.purpose ++ (steps.map Prod.snd).filterMap Action.begun? := by
  induction steps generalizing t with
  | nil => simp
  | cons s rest ih =>
      rw [run_cons, ih, purposes_perform]
      cases h : s.2.begun? <;> simp [h]

/-- What is new after a run is what its steps have done. -/
theorem dealingsSince_run (t : Transaction) (steps : List (Instant × Action)) :
    (t.run steps).dealingsSince t.dependents.length t.calls.length =
      dealingsOf t.dependents.length (steps.map Prod.snd) := by
  have issued (more : List (DependentMode × Nat)) :
      (t.modes.zipIdx ++ more).drop t.dependents.length = more := List.drop_left' (by simp)
  have begun (more : List Purpose) :
      (t.calls.map Call.purpose ++ more).drop t.calls.length = more := List.drop_left' (by simp)
  rw [dealingsSince, modes_run, purposes_run, List.zipIdx_append, Nat.zero_add, length_modes,
    issued, begun, dealingsOf]

/-! ## Released dependents -/

theorem isReleased_iff : t.isReleased k = true ↔
    ∃ d, t.dependents[k]? = some d ∧ d.released = true := by
  simp [isReleased, Option.any_eq_true]

theorem isReleased_discount {j : Nat} {d : Dependent} (given : t.dependents[j]? = some d)
    (released : j = k ∨ t.isReleased k = true) : (t.discount j d).isReleased k = true := by
  have lt := (List.getElem?_eq_some_iff.mp given).1
  rw [discount_eq]
  by_cases same : j = k
  · subst same
    simp [isReleased, lt]
  · simpa [isReleased, same] using released.resolve_left same

/-- What is given out is not released, and nothing else becomes released. -/
theorem isReleased_issue (t : Transaction) (mode : DependentMode) (k : Nat) :
    (t.issue mode).isReleased k = t.isReleased k := by
  rw [issue_eq]
  rcases Nat.lt_or_ge k t.dependents.length with lt | ge
  · simp [isReleased, List.getElem?_append_left lt]
  · rw [isReleased, isReleased, List.getElem?_append_right ge, List.getElem?_eq_none ge]
    cases k - t.dependents.length <;> rfl

/-- Nobody takes a release back. -/
theorem Step.isReleased (s : t.Step now events t') (released : t.isReleased k = true) :
    t'.isReleased k = true := by
  cases s with
  | issue mode => rwa [isReleased_issue]
  | begin enters =>
      cases enters with
      | forsake given | release given => exact isReleased_discount given (.inr released)
      | _ => exact released
  | move reached moves => cases moves <;> exact released
  | _ => exact released

/-- A dependent is released as soon as the call for that begins. -/
theorem isReleased_begin (given : k < t.dependents.length) (now : Instant) (completed : Bool) :
    (t.perform now (.begin (.release k completed))).isReleased k = true := by
  have enters := enters_enter t (.release k completed)
  suffices h : (t.enter (.release k completed)).1.isReleased k = true from h
  generalize (t.enter (.release k completed)).1 = t₁ at enters
  generalize (t.enter (.release k completed)).2 = p at enters
  cases enters with
  | forsake given | release given => exact isReleased_discount given (.inl rfl)
  | spare gone => exact isReleased_iff.mpr ⟨_, List.getElem?_eq_getElem given,
      gone _ (List.getElem?_eq_getElem given)⟩

theorem isReleased_run (released : t.isReleased k = true) (steps : List (Instant × Action)) :
    (t.run steps).isReleased k = true :=
  run_induction (motive := fun t => t.isReleased k = true) (fun h s => s.isReleased h) released
    steps

theorem isReleased_of_discount {j : Nat} {d : Dependent} (ne : j ≠ k)
    (released : (t.discount j d).isReleased k = true) : t.isReleased k = true := by
  rw [discount_eq] at released
  simpa [isReleased, ne] using released

/-- Beginning a call releases nothing but the dependent that it asks to release. -/
theorem Enters.release_of_isReleased {purpose : Purpose} {p : Point}
    (enters : t.Enters purpose t₁ p) (released : t₁.isReleased k = true) :
    t.isReleased k = true ∨
      ∃ completed, purpose = .release k completed ∧ k < t.dependents.length := by
  cases enters with
  | @forsake j _ given | @release j _ _ given =>
      by_cases same : j = k
      · subst same
        exact .inr ⟨_, rfl, (List.getElem?_eq_some_iff.mp given).1⟩
      · exact .inl (isReleased_of_discount same released)
  | _ => exact .inl released

/-- Nothing is released but by a call for that. -/
theorem Step.release_of_isReleased (s : t.Step now events t') (released : t'.isReleased k = true) :
    t.isReleased k = true ∨ ∃ completed, .release k completed ∈ t'.calls.map Call.purpose := by
  cases s with
  | issue mode => exact .inl (t.isReleased_issue mode k ▸ released)
  | begin enters =>
      rcases enters.release_of_isReleased released with before | ⟨completed, rfl, -⟩
      · exact .inl before
      · exact .inr ⟨_, List.mem_map.mpr ⟨_, List.mem_concat_self, rfl⟩⟩
  | move reached moves => cases moves <;> exact .inl released
  | _ => exact .inl released

/-- A dependent that is released was the subject of a call. -/
def Requested (t : Transaction) : Prop :=
  ∀ k, t.isReleased k = true → ∃ completed, .release k completed ∈ t.calls.map Call.purpose

theorem Requested.step (h : t.Requested) (s : t.Step now events t') : t'.Requested := by
  intro k released
  rcases s.release_of_isReleased released with before | requested
  · obtain ⟨completed, mem⟩ := h k before
    exact ⟨completed, s.purposes_prefix.subset mem⟩
  · exact requested

/-- A dependent of a mode that is released. -/
theorem dependents_of_isReleased {mode : DependentMode} (given : t.modes[k]? = some mode)
    (released : t.isReleased k = true) : t.dependents[k]? = some ⟨mode, true⟩ := by
  obtain ⟨d, there, done⟩ := isReleased_iff.mp released
  simp only [modes, List.getElem?_map, there, Option.map_some, Option.some.injEq] at given
  rw [there, ← given, ← done]

/-! ## Waiting for others -/

/-- A commit that looks at the transaction now and has to wait does not wait for the dependent. -/
def WaitsForOthers (t : Transaction) (k : Nat) : Prop :=
  ∀ now deadline, (t.look now).2 = .parked deadline →
    t.committing = true ∨ ∃ j d, j ≠ k ∧ t.dependents[j]? = some d ∧ d.isOut .blocking = true

theorem Counted.waitsForOthers (h : t.Counted) (released : t.isReleased k = true) :
    t.WaitsForOthers k := by
  intro now deadline parks
  have moves := t.moves_look now
  generalize (t.look now).1 = t₁ at moves
  rw [parks] at moves
  cases moves with
  | park _ _ busy =>
      cases free : t.committing with
      | true => exact .inl rfl
      | false =>
          have some' : t.blocking ≠ 0 := fun none => busy ⟨none, free⟩
          have count : t.blocking = t.dependents.countP (Dependent.isOut .blocking) := h .blocking
          obtain ⟨d, mem, out⟩ := List.countP_pos_iff.mp (Nat.pos_of_ne_zero (count ▸ some'))
          obtain ⟨j, given⟩ := List.mem_iff_getElem?.mp mem
          refine .inr ⟨j, d, ?_, given, out⟩
          rintro rfl
          simp [isReleased, given] at released
          simp [Dependent.isOut, released] at out

theorem Reachable.requested {options : TransactionOptions} (h : Reachable options now t) :
    t.Requested := by
  obtain ⟨localId, sequence, createdAt, started, steps, rfl⟩ := h.exists_run
  exact run_induction Requested.step (fun k released => by cases released) steps

theorem Reachable.counted {options : TransactionOptions} (h : Reachable options now t) :
    t.Counted := by
  obtain ⟨localId, sequence, createdAt, started, steps, rfl⟩ := h.exists_run
  exact run_induction Counted.step (counted_create localId sequence createdAt started options) steps

end Transaction

end NestedWork
