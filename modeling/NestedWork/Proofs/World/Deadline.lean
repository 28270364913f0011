import NestedWork.Proofs.Transaction.Deadline
import NestedWork.Proofs.World.Construction
import NestedWork.Proofs.World.Verdict

/-!
# The deadline of a tree

Nested units shorten the time that a commit of the root may wait. There is one exception. A timeout
of zero stands for none, and it is the shortest: a unit that asks for it takes the deadline away.

## Implementation notes

The transaction follows its root, and the root has the shortest timeout that was asked for in its
tree. So the deadline after a run is read off what was asked for by then, in whatever order.
-/

namespace NestedWork.World

variable {w : World} {r n : Nat} {y : UnitOfWork} {t : Transaction} {managers : List Manager}
  {past after : List Action} {asked : List Duration}

/-- An opening leaves what a root holds alone. -/
theorem exists_slot_run (unit : ((initial managers).run past).units[r]? = some y)
    (openings : ∀ a ∈ after, ∃ o, a = .openUnit o) :
    ∃ y', ((initial managers).run (past ++ after)).units[r]? = some y' ∧ y'.slot = y.slot := by
  induction after using List.reverseRecOn with
  | nil => exact ⟨y, by simpa using unit, rfl⟩
  | append_singleton after a ih =>
      obtain ⟨y₁, before, same⟩ := ih fun b mem => openings b (List.mem_append_left _ mem)
      obtain ⟨o, rfl⟩ := openings a (by simp)
      have graded := graded_run managers (past ++ after)
      rw [← List.append_assoc, run_append]
      change ∃ y', (World.perform _ (.openUnit o)).units[r]? = some y' ∧ y'.slot = y.slot
      rcases perform_openUnit _ o with ⟨w', opened, eq, -⟩ | ⟨eq, -⟩
      · rw [eq]
        refine ⟨_, (graded.nested.opened opened).old before, ?_⟩
        split <;> exact same
      · rw [eq]
        exact ⟨y₁, before, same⟩

/-- A transaction keeps its start in a run, and its timeout grows no longer. -/
theorem exists_transaction_run
    (transaction : ((initial managers).run past).transactions[n]? = some t)
    (after : List Action) :
    ∃ t', ((initial managers).run (past ++ after)).transactions[n]? = some t' ∧
      t'.started = t.started ∧ t'.timeout ≤ t.timeout := by
  refine run_induction (P := fun w => ∃ t', w.transactions[n]? = some t' ∧
    t'.started = t.started ∧ t'.timeout ≤ t.timeout) managers after
    ⟨t, transaction, rfl, le_refl _⟩ ?_
  rintro w w' l - ⟨t₁, before, started, timeout⟩ step
  obtain ⟨actions, later⟩ := step.transaction_forth before
  exact ⟨_, later, (t₁.started_run _).trans started, (t₁.timeout_run_le _).trans timeout⟩

/-- The root of a tree has a positive timeout exactly if no unit of the tree has asked for none. -/
theorem Graded.pos_iff (h : w.Graded asked) (unit : w.units[r]? = some y) (root : y.isRoot = true) :
    Duration.zero < y.options.timeout ↔ Duration.zero ∉ w.askedIn asked r := by
  have least := h.least unit root
  constructor
  · intro positive mem
    exact not_le_of_gt positive (least.2 mem)
  · intro none
    refine lt_of_le_of_ne (h.nested.nonneg unit) fun zero => none ?_
    rw [zero]
    exact least.1

/-- What units that are opened, in the course of whatever else happens, do to the deadline of the
transaction that a root holds. It moves to no later time, having none being the latest, exactly if
there was none before or nobody in the tree has asked for a timeout of zero. Where somebody has,
there is none. An opening does not take the transaction from the root. -/
theorem deadline_of_root (managers : List Manager) (past after : List Action) (r n : Nat)
    (y : UnitOfWork) (t : Transaction) :
    let w := (initial managers).run past
    let w' := (initial managers).run (past ++ after)
    let asked := (initial managers).requests (past ++ after)
    Unlowered managers (past ++ after) → w.units[r]? = some y → y.slot = .live n →
      w.transactions[n]? = some t →
      ∃ y' t', w'.units[r]? = some y' ∧ w'.transactions[n]? = some t' ∧
        ((∀ a ∈ after, ∃ o, a = .openUnit o) → y'.slot = .live n) ∧
        (y'.slot = .live n →
          (Transaction.NoLater t.deadline t'.deadline ↔
            t.deadline = none ∨ Duration.zero ∉ w'.askedIn asked r) ∧
          (Duration.zero ∈ w'.askedIn asked r → t'.deadline = none)) := by
  intro w w' asked unlowered unit live transaction
  have root : y.isRoot = true := ((orderly_run managers past).held unit live).1
  obtain ⟨y', unit', same⟩ := exists_unit_run after unit
  obtain ⟨t', transaction', started, shorter⟩ := exists_transaction_run transaction after
  refine ⟨y', t', unit', transaction', ?_, ?_⟩
  · intro openings
    obtain ⟨y₁, unit₁, kept⟩ := exists_slot_run unit openings
    obtain rfl := Option.some.inj (unit'.symm.trans unit₁)
    exact kept.trans live
  · intro live'
    -- The transaction has the timeout of the root, and so the shortest one asked for.
    have terms := (matched_run unlowered).terms unit' live'
    obtain ⟨t₁, here, eq⟩ := Option.map_eq_some_iff.mp terms
    obtain rfl := Option.some.inj (transaction'.symm.trans here)
    have timeout : t'.timeout = y'.options.timeout := (Prod.mk.inj eq).2
    have positive := (graded_run managers (past ++ after)).pos_iff unit' (same.trans root)
    rw [← timeout] at positive
    refine ⟨?_, fun mem => ?_⟩
    · rw [Transaction.noLater_deadline_iff started shorter, positive]
    · have none : t'.timeout ≤ Duration.zero := not_lt.mp fun pos => positive.mp pos mem
      rw [Transaction.deadline, if_pos none]

/-- A child that asks for ten seconds. -/
def brisk : Opening := ⟨"brisk", "", some 0, 0, 0, .ofLevel .default (.ofSeconds 10)⟩

/-- A child that asks for no timeout. -/
def endless : Opening := ⟨"endless", "", some 0, 0, 0, .ofLevel .default .zero⟩

/-- Nobody shortens the timeout of a transaction in a run of openings after a commit has begun. -/
theorem unlowered_commenced (o : Opening) : Unlowered managers (commenced ++ [.openUnit o]) := by
  intro before after n timeout eq
  have mem : Action.call n (.lower timeout) ∈ commenced ++ [.openUnit o] := by simp [eq]
  simp [commenced] at mem

/-- A child that asks for ten seconds brings the deadline of the root forward, and one that asks for
no timeout takes it away. -/
theorem deadline_of_root_commenced :
    let w := (initial [.permissive]).run commenced
    let w₁ := (initial [.permissive]).run (commenced ++ [.openUnit brisk])
    let w₂ := (initial [.permissive]).run (commenced ++ [.openUnit endless])
    ∃ t t₁ t₂, w.transactions[0]? = some t ∧ w₁.transactions[0]? = some t₁ ∧
      w₂.transactions[0]? = some t₂ ∧ t.deadline = some ⟨60000000000⟩ ∧
      Transaction.NoLater t.deadline t₁.deadline ∧ t₂.deadline = none := by
  intro w w₁ w₂
  obtain ⟨y, unit, live⟩ : ∃ y, w.units[0]? = some y ∧ y.slot = .live 0 := ⟨_, rfl, rfl⟩
  obtain ⟨t, transaction, due⟩ : ∃ t, w.transactions[0]? = some t ∧
      t.deadline = some ⟨60000000000⟩ := ⟨_, rfl, rfl⟩
  obtain ⟨y₁, t₁, -, first, still₁, sooner⟩ := deadline_of_root [.permissive] commenced
    [.openUnit brisk] 0 0 y t (unlowered_commenced brisk) unit live transaction
  obtain ⟨y₂, t₂, -, second, still₂, gone⟩ := deadline_of_root [.permissive] commenced
    [.openUnit endless] 0 0 y t (unlowered_commenced endless) unit live transaction
  refine ⟨t, t₁, t₂, transaction, first, second, due, ?_, ?_⟩
  · refine (sooner (still₁ (by simp))).1.mpr (.inr ?_)
    rintro ⟨k, -, request⟩
    rcases k with _ | _ | k <;> cases request
  · exact (gone (still₂ (by simp))).2 ⟨1, rfl, rfl⟩

/-- A nested unit may take the deadline of the transaction away that the root of its tree holds. -/
theorem not_deadline_of_opening :
    ¬ ∀ (managers : List Manager) (past : List Action) (o : Opening) (w' : World) (r n : Nat)
        (y : UnitOfWork) (t t' : Transaction),
      let w := (initial managers).run past
      Unlowered managers (past ++ [.openUnit o]) → Duration.zero ≤ o.options.timeout →
        w.openUnit o = .ok w' → w.units[r]? = some y → y.slot = .live n →
          w.transactions[n]? = some t → w'.transactions[n]? = some t' →
            Transaction.NoLater t.deadline t'.deadline := by
  intro all
  have here := all [.permissive] commenced endless _ 0 0 _ _ _ (unlowered_commenced endless)
    (by decide) rfl rfl rfl rfl rfl
  obtain ⟨d, due, -⟩ := here ⟨60000000000⟩ rfl
  cases due

end NestedWork.World
