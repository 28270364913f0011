import NestedWork.Proofs.World.Doom
import NestedWork.Proofs.World.Handle

/-!
# The one transaction of a tree

The first commit of a tree that is let through opens the transaction that all others work in. Once
the root has given it up there is none for later ones, and when nobody works for the root any more
the transaction is over.

## Implementation notes

A transaction comes to be by an action of a client or by a commit that is let through, and the root
of that commit's unit owns it then. What a root owns afterwards is told by its stem, so a second
transaction would have to be one that is older than itself.
-/

namespace NestedWork

namespace World

variable {w w₀ w' : World} {a a' : Action} {l : Label} {asks : Bool} {moved : Option Nat}
  {c d u v r m n thread : Nat} {x : UnitOfWork} {f : UnitOfWork → UnitOfWork} {scope : Scope}

/-! ## What a root owns -/

/-- The slot of a unit holds a transaction. -/
def Owns (w : World) (r n : Nat) : Prop := ∃ x, w.units[r]? = some x ∧ x.slot = .live n

theorem Owns.modifyUnit (h : w.Owns r n) (v : Nat) (kept : ∀ x, (f x).slot = x.slot) :
    (w.modifyUnit v f).Owns r n := by
  obtain ⟨x, unit, live⟩ := h
  by_cases same : v = r
  · exact ⟨f x, by simp [World.modifyUnit, same, unit], (kept x).trans live⟩
  · exact ⟨x, by simp [World.modifyUnit, same, unit], live⟩

theorem owns_foundAt {y : UnitOfWork} (root : w.units[r]? = some y) :
    (w.foundAt r y).Owns r w.transactions.length :=
  ⟨y.found w.transactions.length, by simp [units_foundAt, root], rfl⟩

theorem transaction_enterScope (w : World) (u : Nat) (x : UnitOfWork) (n thread : Nat) :
    (w.enterScope u x n thread).2.transaction = n := by
  by_cases away : thread ≠ x.thread
  · simp only [enterScope, if_pos away]
  · simp only [enterScope, if_neg away]

theorem Owns.enterScope (h : w.Owns r n) (u : Nat) (x : UnitOfWork) (m thread : Nat) :
    (w.enterScope u x m thread).1.Owns r n := by
  have entered : (w.modifyUnit u (.enter m)).Owns r n := h.modifyUnit u fun _ => rfl
  by_cases away : thread ≠ x.thread
  · simp only [World.enterScope, if_pos away]
    exact entered
  · simp only [World.enterScope, if_neg away]
    exact entered

/-- A commit that is let through works in the transaction that its root owns then. If none was
opened before, that is the one transaction that is opened now. -/
theorem LetThrough.owns (through : w.LetThrough c u thread w') : ∃ scope,
    w'.operations = (w.moveTo c (.work scope)).operations ∧
      w'.Owns (w.rootOf u) scope.transaction ∧
      (w'.transactions.length = w.transactions.length ∨
        w'.transactions.length = w.transactions.length + 1 ∧
          scope.transaction = w.transactions.length) := by
  have entered (w : World) (x : UnitOfWork) {r n : Nat} (owns : w.Owns r n) : ∃ scope : Scope,
      (w.setToWork c u x n thread).operations = (w.moveTo c (.work scope)).operations ∧
        (w.setToWork c u x n thread).Owns r scope.transaction ∧
        (w.setToWork c u x n thread).transactions.length = w.transactions.length ∧
        scope.transaction = n := by
    have edits : Edits false none w (w.enterScope u x n thread).1 :=
      (w.proceeds_enterScope u x n thread).edits
    have place := w.transaction_enterScope u x n thread
    refine ⟨(w.enterScope u x n thread).2, ?_, ?_, edits.length_transactions, place⟩
    · rw [setToWork, moveTo, operations_enterScope, moveTo]
    · rw [place]
      exact owns.enterScope u x n thread
  cases through with
  | @enter x y n unit root live =>
      obtain ⟨scope, work, owns, length, -⟩ := entered w x ⟨y, root, live⟩
      exact ⟨scope, work, owns, .inl length⟩
  | @found x y unit root pending =>
      obtain ⟨scope, work, owns, length, place⟩ := entered _ x (owns_foundAt root)
      exact ⟨scope, work, owns, .inr ⟨length.trans (w.length_foundAt _ y), place⟩⟩

/-! ## What an action opens -/

/-- A transaction comes to be by an action. -/
def Creates (w : World) (a : Action) (n : Nat) : Prop :=
  w.transactions.length ≤ n ∧ n < (w.perform a).transactions.length

theorem Permits.exists_unit (permits : w.Permits u c a) (order : w.Orderly) :
    ∃ x, w.units[u]? = some x := by
  cases permits with
  | decided unit => exact ⟨_, unit⟩
  | told asked =>
      obtain ⟨thread, running⟩ := need_eq_canCommit.mp asked
      exact order.seated running rfl

theorem Extends.rootOf_eq (h : w.Extends w') (unit : w.units[u]? = some x) :
    w'.rootOf u = w.rootOf u := by
  obtain ⟨x', unit', lineage, -⟩ := h.unit unit
  rw [World.rootOf_eq unit', World.rootOf_eq unit, lineage]

/-- A transaction is opened by a client, or for the tree of a unit whose manager lets a commit
through. -/
theorem creates_cases (order : w.Orderly) (creates : w.Creates a n) :
    (∃ localId options, a = .openTransaction localId options) ∨
      ∃ u c, w.Permits u c a ∧ (w.perform a).Owns (w.rootOf u) n := by
  obtain ⟨old, new⟩ := creates
  rcases w.edits_perform a with client | edits | ⟨u, c, thread, w₀, permits, -, edits, -, through⟩
  · exact .inl client
  · rw [edits.length_transactions] at new
    omega
  · right
    obtain ⟨x, unit⟩ := permits.exists_unit order
    obtain ⟨scope, -, owns, length⟩ := through.owns
    rw [edits.length_transactions] at length
    rw [edits.extends.rootOf_eq unit] at owns
    rcases length with same | ⟨one, place⟩
    · omega
    · obtain rfl : n = scope.transaction := by omega
      exact ⟨u, c, permits, owns⟩

/-- A capability that is at work after an action was so before, or its manager lets the commit
through and it works in what its root owns. -/
theorem work_cases (order : w.Orderly)
    (running : (w.perform a).operations[c]? = some ⟨u, thread, .work scope⟩) :
    w.operations[c]? = some ⟨u, thread, .work scope⟩ ∨
      w.Permits u c a ∧ (w.perform a).Owns (w.rootOf u) scope.transaction := by
  rcases w.edits_perform a with ⟨localId, options, rfl⟩ | edits |
    ⟨v, d, thread', w₀, permits, -, edits, asks, through⟩
  · exact .inl running
  · exact .inl (edits.work_back running)
  · obtain ⟨scope', moved, owns, -⟩ := through.owns
    rw [moved] at running
    rcases operations_moveTo asks running with ⟨-, old⟩ | ⟨rfl, new⟩
    · exact .inl (edits.work_back old)
    · cases new
      obtain ⟨x, unit⟩ := permits.exists_unit order
      exact .inr ⟨permits, edits.extends.rootOf_eq unit ▸ owns⟩

theorem Step.length_transactions_le (step : w.Step l w') :
    w.transactions.length ≤ w'.transactions.length := by
  refine Nat.le_of_not_lt fun fewer => ?_
  obtain ⟨actions, after⟩ := step.transaction_forth (List.getElem?_eq_getElem fewer)
  exact Nat.lt_irrefl _ (List.getElem?_eq_some_iff.mp after).1

/-- What is owned now was owned at some time before, or has come to be since. -/
structure Since (w w₁ : World) : Prop where
  grown : w.transactions.length ≤ w₁.transactions.length
  owns : ∀ {r n : Nat}, w₁.Owns r n →
    w.Owns r n ∨ w.transactions.length ≤ n ∧ n < w₁.transactions.length

theorem Since.step (h : w.Since w₀) (step : w₀.Step l w') : w.Since w' where
  grown := h.grown.trans step.length_transactions_le
  owns := by
    rintro r n ⟨x, unit, live⟩
    have more := step.length_transactions_le
    rcases step.slot_back unit live with ⟨y, unit', live'⟩ | ⟨rfl, v, y, z, -, -, -, -, rfl⟩
    · exact (h.owns ⟨y, unit', live'⟩).imp_right fun ⟨old, new⟩ => ⟨old, by omega⟩
    · rw [length_foundAt]
      exact .inr ⟨h.grown, Nat.lt_succ_self _⟩

/-- What a unit owns after an action it has owned before, or it has just come to be. -/
theorem owns_cases (order : w.Orderly) (owns : (w.perform a).Owns r n) :
    w.Owns r n ∨ w.Creates a n := by
  have start : w.Since w := ⟨Nat.le_refl _, .inl⟩
  exact (perform_induction (P := w.Since) start order.seated (fun _ _ _ step => start.step step)
    fun h step _ => h.step step).owns owns

/-! ## Foundings -/

section Run

variable {managers : List Manager} {past earlier earlier' rest : List Action}

/-- In the course of a run, a transaction comes to be by an action, and the root of a tree owns
it. -/
structure Founds (managers : List Manager) (past : List Action) (r : Nat) (earlier : List Action)
    (a : Action) (n : Nat) : Prop where
  isPrefix : earlier ++ [a] <+: past
  creates : ((initial managers).run earlier).Creates a n
  owns : ((initial managers).run (earlier ++ [a])).Owns r n

namespace Founds

theorem mono (h : Founds managers past r earlier a n) (more : past <+: rest) :
    Founds managers rest r earlier a n :=
  { h with isPrefix := h.isPrefix.trans more }

theorem stem (h : Founds managers past r earlier a n) :
    ((initial managers).run (earlier ++ [a])).Stem r n := by
  obtain ⟨x, unit, live⟩ := h.owns
  exact (stemmed_run managers _).held unit live

/-- What a tree comes to work in later is not new. -/
theorem not_later (h : Founds managers past r earlier a n)
    (h' : Founds managers past r earlier' a' m) : ¬ earlier ++ [a] <+: earlier' := by
  rintro ⟨rest, rfl⟩
  have before := h.stem.run rest
  have after := before.run [a']
  rw [List.append_assoc] at after
  obtain ⟨x, unit, live⟩ := h'.owns
  rw [List.append_assoc] at unit
  obtain rfl := after.holds.eq_of_live unit live
  exact absurd before.lt (Nat.not_lt.mpr h'.creates.1)

/-- The transaction of a tree is opened once. -/
theorem unique (h : Founds managers past r earlier a n)
    (h' : Founds managers past r earlier' a' m) : earlier = earlier' ∧ a = a' ∧ n = m := by
  have same (eq : earlier ++ [a] = earlier' ++ [a']) : earlier = earlier' ∧ a = a' ∧ n = m := by
    obtain ⟨rfl, last⟩ := List.append_inj' eq rfl
    obtain rfl := List.singleton_inj.mp last
    obtain ⟨x, unit, live⟩ := h'.owns
    exact ⟨rfl, rfl, (h.stem.holds.eq_of_live unit live).symm⟩
  have apart {e e' : List Action} {b b' : Action} (isPrefix : e ++ [b] <+: e' ++ [b'])
      (later : ¬ e ++ [b] <+: e') : e ++ [b] = e' ++ [b'] :=
    (List.prefix_concat_iff.mp isPrefix).resolve_right later
  rcases List.prefix_or_prefix_of_prefix h.isPrefix h'.isPrefix with first | second
  · exact same (apart first (h.not_later h'))
  · exact same (apart second (h'.not_later h)).symm

/-- The transaction of a tree is opened by a commit that the manager of its unit has let through. -/
theorem permits (h : Founds managers past r earlier a n) : ∃ u c,
    ((initial managers).run earlier).Permits u c a ∧
      ((initial managers).run past).rootOf u = r := by
  have order := orderly_run managers earlier
  obtain ⟨x, unit, live⟩ := h.owns
  rcases creates_cases order h.creates with ⟨localId, options, rfl⟩ | ⟨u, c, permits, y, top, live'⟩
  · -- A client changes no unit, and what the root has owned before is not new.
    rw [run_append] at unit
    exact absurd (order.held (u := r) unit live).2 (Nat.not_lt.mpr h.creates.1)
  · obtain ⟨z, there⟩ := permits.exists_unit order
    obtain ⟨rest, rfl⟩ := h.isPrefix
    have after := orderly_run managers (earlier ++ [a])
    rw [run_append] at after unit
    refine ⟨u, c, permits, ?_⟩
    rw [List.append_assoc, rootOf_run _ there]
    exact after.single top unit live' live

end Founds

/-- What a root owns was founded for its tree. -/
theorem exists_founds_of_owns (owns : ((initial managers).run past).Owns r n) :
    ∃ earlier a, Founds managers past r earlier a n := by
  induction past using List.reverseRecOn with
  | nil =>
      obtain ⟨x, unit, -⟩ := owns
      cases unit
  | append_singleton past a ih =>
      rw [run_append] at owns
      rcases owns_cases (orderly_run managers past) owns with before | creates
      · obtain ⟨earlier, b, founds⟩ := ih before
        exact ⟨earlier, b, founds.mono (List.prefix_append _ _)⟩
      · exact ⟨past, a, List.prefix_rfl, creates, by rwa [run_append]⟩

/-- What a capability works in was founded for the tree of its unit. -/
theorem exists_founds_of_work
    (work : ((initial managers).run past).operations[c]? = some ⟨u, thread, .work scope⟩) :
    ∃ earlier a, Founds managers past (((initial managers).run past).rootOf u) earlier a
      scope.transaction := by
  induction past using List.reverseRecOn with
  | nil => cases work
  | append_singleton past a ih =>
      have order := orderly_run managers past
      rw [run_append] at work
      rcases work_cases order work with before | ⟨permits, owns⟩
      · obtain ⟨x, unit⟩ := order.seated before rfl
        obtain ⟨earlier, b, founds⟩ := ih before
        rw [rootOf_run [a] unit]
        exact ⟨earlier, b, founds.mono (List.prefix_append _ _)⟩
      · obtain ⟨x, unit⟩ := permits.exists_unit order
        rw [rootOf_run [a] unit]
        exact exists_founds_of_owns (by rwa [run_append])

/-! ## After the release -/

theorem exists_of_hasYielded (gone : w.hasYielded u = true) :
    ∃ x, w.units[u]? = some x ∧ x.slot = .released := by
  cases unit : w.units[u]? with
  | none => simp [hasYielded, unit] at gone
  | some x => exact ⟨x, rfl, by simpa [hasYielded_of unit] using gone⟩

/-- A root that has given up the transaction of its tree owns none again. -/
theorem Step.hasYielded (step : w.Step l w') (gone : w.hasYielded u = true) :
    w'.hasYielded u = true := by
  obtain ⟨x, unit, released⟩ := exists_of_hasYielded gone
  obtain ⟨x', unit', -, -, slot, -⟩ := step.forth unit
  rw [hasYielded_of unit', beq_iff_eq]
  rcases slot with pending | same | slot
  · cases released.symm.trans pending
  · exact same.trans released
  · exact slot

theorem hasYielded_run (gone : ((initial managers).run past).hasYielded u = true)
    (rest : List Action) : ((initial managers).run (past ++ rest)).hasYielded u = true :=
  run_induction (P := fun w => w.hasYielded u = true) managers rest gone
    fun _ h step => step.hasYielded h

theorem not_owns_of_hasYielded (gone : w.hasYielded r = true) : ¬ w.Owns r n := by
  rintro ⟨x, unit, live⟩
  obtain ⟨x', unit', released⟩ := exists_of_hasYielded gone
  obtain rfl := Option.some.inj (unit.symm.trans unit')
  cases live.symm.trans released

/-- Whoever works in a tree after the root has given up its transaction did so before. -/
theorem work_of_hasYielded (gone : ((initial managers).run past).hasYielded r = true)
    (work : ((initial managers).run (past ++ rest)).operations[c]? =
      some ⟨u, thread, .work scope⟩)
    (tree : ((initial managers).run (past ++ rest)).rootOf u = r) :
    ((initial managers).run past).operations[c]? = some ⟨u, thread, .work scope⟩ := by
  induction rest using List.reverseRecOn with
  | nil => simpa using work
  | append_singleton rest a ih =>
      have order := orderly_run managers (past ++ rest)
      rw [← List.append_assoc] at work tree
      rw [run_append] at work
      rcases work_cases order work with before | ⟨permits, owns⟩
      · obtain ⟨x, unit⟩ := order.seated before rfl
        exact ih before (rootOf_run [a] unit ▸ tree)
      · obtain ⟨x, unit⟩ := permits.exists_unit order
        rw [rootOf_run [a] unit] at tree
        have after := hasYielded_run gone (rest ++ [a])
        rw [← List.append_assoc, run_append] at after
        rw [tree] at owns
        exact absurd owns (not_owns_of_hasYielded after)

/-- A root that is released, while no commit of it runs, has ended the transaction of its tree. -/
theorem Founds.ended (h : Founds managers past r earlier a n)
    (unit : ((initial managers).run past).units[r]? = some x) (root : x.isRoot = true)
    (gone : ((initial managers).run past).hasYielded r = true)
    (idle : ∀ c, ((initial managers).run past).isAt r c Stage.isRunning = false) :
    ∃ t, ((initial managers).run past).transactions[n]? = some t ∧
      (t.status = .committed ∨ t.status = .aborted) := by
  have guarded : ((initial managers).run (earlier ++ [a])).Guarded r n := by
    obtain ⟨y, founded, live⟩ := h.owns
    have tallied := tallies_run managers (earlier ++ [a]) founded
      ((stemmed_run managers _).order.held founded live).1
    exact .inl ⟨y, founded, tallied.pos_of_live live⟩
  obtain ⟨rest, rfl⟩ := h.isPrefix
  refine (guarded.run h.stem rest).resolve_left ?_
  rintro ⟨y, unit', holds⟩
  obtain rfl := Option.some.inj (unit.symm.trans unit')
  obtain ⟨y, unit', released⟩ := exists_of_hasYielded gone
  obtain rfl := Option.some.inj (unit.symm.trans unit')
  have count := (tallies_run managers _ unit root).apart fun c =>
    isAt_of_imp (fun _ => Stage.isRunning_of_isEngaged) (idle c)
  rw [released] at count
  exact Nat.ne_of_gt holds count

/-- Once a root has been disposed of or dropped and its release is over, it has given up the
transaction of its tree. -/
theorem hasYielded_of_released (unit : ((initial managers).run past).units[r]? = some x)
    (root : x.isRoot = true)
    (released : ((initial managers).run past).isDisposed r = true ∨ Dropped managers past r)
    (idle : ∀ c, ((initial managers).run past).isAt r c Stage.isDeparting = false) :
    ((initial managers).run past).hasYielded r = true := by
  have gone : ((initial managers).run past).isDisposed r = true := by
    refine released.elim id fun dropped => dropped.cases.resolve_right ?_
    rintro ⟨c, thread, running⟩
    cases (idle c).symm.trans (isAt_of running)
  obtain ⟨ws, course⟩ := exists_course managers past
  obtain ⟨c, -, yielded⟩ := (course.phase r).eq_full unit gone fun c =>
    isAt_of_imp (fun _ => Stage.isDeparting_of_isParting) (idle c)
  exact yielded.trans root

/-- A tree has one transaction and does not leave it open.

In every run, a transaction comes to be by a client, or by an action at which the manager of a unit
lets a commit of it through, for the tree of that unit. For the tree of a root that happens at most
once, and whatever capability is called in the tree works in what was founded for it by then. From
the time at which the root has given up the transaction, nobody comes to work in the tree, and no
transaction is founded for it. When the root has been disposed of or dropped and its release is
over, it has given up the transaction of the tree, and unless a commit of the root still runs, that
is committed or aborted. -/
theorem one_transaction (managers : List Manager) (past : List Action) (r : Nat) (x : UnitOfWork)
    (unit : ((initial managers).run past).units[r]? = some x) (root : x.isRoot = true) :
    let w := (initial managers).run past
    (∀ earlier a n, earlier ++ [a] <+: past → ((initial managers).run earlier).Creates a n →
      (∃ localId options, a = .openTransaction localId options) ∨
        ∃ u c, ((initial managers).run earlier).Permits u c a ∧
          Founds managers past (w.rootOf u) earlier a n) ∧
    (∀ earlier a n, Founds managers past r earlier a n → ∃ u c,
      ((initial managers).run earlier).Permits u c a ∧ w.rootOf u = r) ∧
    (∀ earlier a n earlier' a' n', Founds managers past r earlier a n →
      Founds managers past r earlier' a' n' → earlier = earlier' ∧ a = a' ∧ n = n') ∧
    (∀ (earlier : List Action) (c u thread : Nat) (scope : Scope), earlier <+: past →
      ((initial managers).run earlier).operations[c]? = some ⟨u, thread, .work scope⟩ →
        w.rootOf u = r → ∃ before a, Founds managers earlier r before a scope.transaction) ∧
    (∀ earlier, earlier <+: past → ((initial managers).run earlier).hasYielded r = true →
      (∀ (later : List Action) (c u thread : Nat) (scope : Scope), earlier <+: later →
        later <+: past →
        ((initial managers).run later).operations[c]? = some ⟨u, thread, .work scope⟩ →
          w.rootOf u = r →
            ((initial managers).run earlier).operations[c]? = some ⟨u, thread, .work scope⟩) ∧
      ∀ later a n, earlier <+: later → ¬ Founds managers past r later a n) ∧
    (w.isDisposed r = true ∨ Dropped managers past r →
      (∀ c, w.isAt r c Stage.isDeparting = false) → w.hasYielded r = true ∧
        ((∀ c, w.isAt r c Stage.isRunning = false) → ∀ earlier a n,
          Founds managers past r earlier a n →
            ∃ t, w.transactions[n]? = some t ∧
              (t.status = .committed ∨ t.status = .aborted))) := by
  intro w
  -- A unit that is at work has had its root all along.
  have top {earlier : List Action} {c u thread : Nat} {scope : Scope} (before : earlier <+: past)
      (work : ((initial managers).run earlier).operations[c]? = some ⟨u, thread, .work scope⟩) :
      w.rootOf u = ((initial managers).run earlier).rootOf u := by
    obtain ⟨rest, rfl⟩ := before
    obtain ⟨y, there⟩ := (orderly_run managers earlier).seated work rfl
    exact rootOf_run rest there
  refine ⟨?_, fun _ _ _ founds => founds.permits, fun _ _ _ _ _ _ first second =>
    first.unique second, ?_, ?_, ?_⟩
  · rintro earlier a n isPrefix creates
    have order := orderly_run managers earlier
    refine (creates_cases order creates).imp_right ?_
    rintro ⟨u, c, permits, owns⟩
    obtain ⟨y, there⟩ := permits.exists_unit order
    refine ⟨u, c, permits, isPrefix, creates, ?_⟩
    obtain ⟨rest, rfl⟩ := isPrefix
    have same : w.rootOf u = ((initial managers).run earlier).rootOf u := by
      simp only [w, List.append_assoc]
      exact rootOf_run _ there
    rwa [same, run_append]
  · rintro earlier c u thread scope before work tree
    rw [top before work] at tree
    exact tree ▸ exists_founds_of_work work
  · rintro earlier - gone
    constructor
    · rintro later c u thread scope ⟨rest, rfl⟩ before work tree
      rw [top before work] at tree
      exact work_of_hasYielded gone work tree
    · rintro later a n ⟨rest, rfl⟩ founds
      have owns := founds.owns
      rw [List.append_assoc] at owns
      exact not_owns_of_hasYielded (hasYielded_run gone _) owns
  · intro released departed
    have gone := hasYielded_of_released unit root released departed
    exact ⟨gone, fun idle _ _ _ founds => founds.ended unit root gone idle⟩

/-- A root is dropped while a leaf is at work in the transaction that it has opened. -/
def abandoned : List Action :=
  [.openUnit ⟨"root", "shared", none, 0, 0, .default⟩,
    .openUnit ⟨"leaf", "other", some 0, 0, 0, .default⟩, .commit 1 0, .release 0 0 true,
    .answer (.operation 3) .done]

/-- The transaction of a root that is dropped is not left open, though a leaf is at work in it. -/
theorem one_transaction_abandoned :
    let w := (initial [.permissive]).run abandoned
    Founds [.permissive] abandoned 0 (abandoned.take 2) (.commit 1 0) 0 ∧
      (∃ scope, w.operations[2]? = some ⟨1, 0, .work scope⟩) ∧ w.hasYielded 0 = true ∧
        ∃ t, w.transactions[0]? = some t ∧ (t.status = .committed ∨ t.status = .aborted) := by
  intro w
  obtain ⟨x, unit, root⟩ : ∃ x, w.units[0]? = some x ∧ x.isRoot = true := ⟨_, rfl, rfl⟩
  have founds : Founds [.permissive] abandoned 0 (abandoned.take 2) (.commit 1 0) 0 :=
    ⟨⟨abandoned.drop 3, rfl⟩, ⟨Nat.le_refl _, Nat.one_pos⟩, _, rfl, rfl⟩
  have dropped : Dropped [.permissive] abandoned 0 :=
    ⟨abandoned.take 3, 0, abandoned.drop 4, _, rfl, rfl⟩
  have idle (p : Stage → Bool) (none : ∀ answer, p (.done answer) = false) (c : Nat) :
      w.isAt 0 c p = false := by
    rcases c with _ | _ | _ | _ | c
    · exact none .returned
    · rfl
    · rfl
    · exact none .returned
    · rfl
  obtain ⟨gone, ended⟩ := (one_transaction [.permissive] abandoned 0 x unit root).2.2.2.2.2
    (.inr dropped) (idle _ fun _ => rfl)
  exact ⟨founds, ⟨_, rfl⟩, gone, ended (idle _ fun _ => rfl) _ _ _ founds⟩

end Run

end World

end NestedWork
