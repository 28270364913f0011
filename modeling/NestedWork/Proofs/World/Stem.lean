import NestedWork.Proofs.World.Capability
import NestedWork.Proofs.World.Verdict

/-!
# The root of a tree and its transaction

Whoever works in a tree works in the transaction that the root of the tree holds or has held. A
commit of the root that returns data has committed that transaction.

## Implementation notes

This is kept by every step, also by those of clients that commit transactions directly. Nothing is
said here of who has committed or aborted a transaction, so the fate that a root shares with it is
not needed.
-/

namespace NestedWork

/-- A commit that is to return data is past the work of its capability. -/
theorem Stage.isPastWork_of_response? {s : Stage} (settled : s.response? = some (.data ())) :
    s.isPastWork = true := by
  cases s with
  | completing => rfl
  | _ => simpa [isPastWork] using settled

namespace World

variable {w w' : World} {l : Label} {c u v r thread n : Nat} {x : UnitOfWork} {s s' : Stage}
  {f : UnitOfWork → UnitOfWork} {scope : Scope}

/-! ## Roots -/

/-- A unit keeps the root of its tree. -/
theorem Step.rootOf_eq (step : w.Step l w') (unit : w.units[u]? = some x) :
    w'.rootOf u = w.rootOf u := by
  obtain ⟨x', after, -, lineage, -⟩ := step.forth unit
  rw [World.rootOf_eq after, World.rootOf_eq unit, lineage]

/-- Every commit whose capability has succeeded was begun on a unit that is no longer in doubt. -/
def Credited (w : World) : Prop :=
  ∀ {c u thread : Nat} {s : Stage}, w.operations[c]? = some ⟨u, thread, s⟩ → s.isPastWork = true →
    w.Started u

theorem Credited.step (h : w.Credited) (order : w.Orderly) (step : w.Step l w') :
    w'.Credited := by
  intro c u thread s running past
  apply Started.step _ order step
  rcases step.isPastWork_back running past with ⟨s₀, before, past⟩ | ⟨-, scope, work⟩
  · exact h before past
  · obtain ⟨x, unit⟩ := order.seated work rfl
    refine ⟨x, unit, fun inDoubt => ?_⟩
    have shown := (order.shown work unit rfl).2
    rw [inDoubt] at shown
    cases shown

/-! ## Stems -/

/-- A root and the transaction of its tree. All that work in the tree work in the transaction, and a
commit of the root that is to return data has committed it. -/
structure Stem (w : World) (r n : Nat) : Prop where
  holds : w.Holds r n
  lt : n < w.transactions.length
  scopes : ∀ {c u thread : Nat} {s : Stage} {scope : Scope},
    w.operations[c]? = some ⟨u, thread, s⟩ → s.scope? = some scope → w.rootOf u = r →
      scope.transaction = n
  settled : ∀ {c thread : Nat} {s : Stage}, w.operations[c]? = some ⟨r, thread, s⟩ →
    s.response? = some (.data ()) →
      ∃ t, w.transactions[n]? = some t ∧ t.status = .committed

/-- A transaction that is committed stays so. -/
theorem Step.committed (step : w.Step l w') (lived : w.Lived)
    (done : ∃ t, w.transactions[n]? = some t ∧ t.status = .committed) :
    ∃ t, w'.transactions[n]? = some t ∧ t.status = .committed := by
  obtain ⟨t, transaction, committed⟩ := done
  obtain ⟨actions, after⟩ := step.transaction_forth transaction
  exact ⟨_, after, (lived.sound transaction).committed_runAt committed actions⟩

/-- A commit of a root that has just learned that it is to return data has committed the
transaction. -/
theorem Stem.committed_of_turn (h : w.Stem r n) (order : w.Orderly) (lived : w.Lived)
    (completing : w.Completing) {m : Nat} {actions : List Transaction.Action}
    (running : w.operations[c]? = some ⟨r, thread, s⟩) (unit : w.units[r]? = some x)
    (turns : w.Turns c r x thread l s f m actions s') (settled : s'.response? = some (.data ())) :
    ∃ t, w.transactions[n]? = some t ∧ t.status = .committed := by
  obtain ⟨x₀, unit₀, root, -⟩ := h.holds.root
  obtain rfl := Option.some.inj (unit.symm.trans unit₀)
  cases turns with
  | succeed joined =>
      have owner := (order.entered running unit rfl).1
      rw [joined, root] at owner
      cases owner
  | finish judges | yield judges =>
      cases judges with
      | @committed scope inner returned =>
          obtain ⟨owner, eq, t, call, transaction, hc, commit⟩ := completing running
          obtain rfl := (h.holds.scopes running rfl owner).mpr rfl
          have ended : t.result? inner.call = some (.ok ()) := by
            simpa [World.result?, eq, transaction] using returned
          exact ⟨t, transaction, (lived.sound transaction).committed_of_ok hc commit ended⟩
      | _ => cases settled
  | yielded => exact h.settled running settled
  | leave =>
      revert settled
      split <;> rintro ⟨⟩
  | _ => cases settled

/-- What a root holds now is what it has come to hold. -/
theorem Holds.eq_of_live {m : Nat} (h : w.Holds r n) (unit : w.units[r]? = some x)
    (live : x.slot = .live m) : m = n := by
  obtain ⟨x₀, unit₀, -, slot⟩ := h.root
  obtain rfl := Option.some.inj (unit.symm.trans unit₀)
  rcases slot with slot | slot
  · exact Slot.live.inj (live.symm.trans slot)
  · cases live.symm.trans slot

/-- Every step keeps the stem of a tree. -/
theorem Stem.step (h : w.Stem r n) (order : w.Orderly) (lived : w.Lived)
    (completing : w.Completing) (step : w.Step l w') : w'.Stem r n where
  holds := h.holds.step h.lt step
  lt := by
    obtain ⟨actions, after⟩ := step.transaction_forth (List.getElem?_eq_getElem h.lt)
    exact (List.getElem?_eq_some_iff.mp after).1
  scopes := by
    intro c u thread s scope running within root
    rcases step.scope_cases running within with ⟨s, before, within⟩ | ⟨waits, -, y, top, live⟩
    · obtain ⟨x, unit⟩ := order.seated before (isAside_of_isRunning (isRunning_of_scope within))
      exact h.scopes before within (step.rootOf_eq unit ▸ root)
    · obtain ⟨x, unit⟩ := order.seated waits rfl
      rw [← step.rootOf_eq unit, root] at top
      exact h.holds.eq_of_live top live
  settled := by
    intro c thread s' running settled
    apply step.committed lived
    cases before : w.operations[c]? with
    | none =>
        have early := step.fresh before running
        rw [Stage.isPastWork_of_response? settled] at early
        cases early
    | some o =>
        obtain ⟨v, thread₀, s⟩ := o
        obtain ⟨s'', after, advances⟩ := step.advances before
        cases running.symm.trans after
        cases advances with
        | stay => exact h.settled before settled
        | answered => cases settled
        | turn unit turns =>
            exact h.committed_of_turn order lived completing before unit turns settled

/-- All that hold a transaction or work in one belong to the tree of a root and its transaction. -/
structure Stemmed (w : World) : Prop where
  order : w.Orderly
  lived : w.Lived
  completing : w.Completing
  credited : w.Credited
  held : ∀ {r n : Nat} {x : UnitOfWork}, w.units[r]? = some x → x.slot = .live n → w.Stem r n
  working : ∀ {c u thread : Nat} {s : Stage} {scope : Scope},
    w.operations[c]? = some ⟨u, thread, s⟩ → s.scope? = some scope →
      w.Stem (w.rootOf u) scope.transaction

/-- A root that opens a transaction is the stem of its tree. -/
theorem Stemmed.foundAt (h : w.Stemmed) (unit : w.units[r]? = some x) (root : x.isRoot = true)
    (pending : x.slot = .pending) : (w.foundAt r x).Stem r w.transactions.length where
  holds := (tree_foundAt h.order unit root pending).holds
  lt := by
    rw [length_foundAt]
    exact Nat.lt_succ_self _
  scopes := by
    intro c u thread s scope running within top
    have before : w.operations[c]? = some ⟨u, thread, s⟩ := running
    obtain ⟨y, there⟩ :=
      h.order.seated before (isAside_of_isRunning (isRunning_of_scope within))
    obtain ⟨y', after, -, lineage, -⟩ := forth_foundAt r x there
    rw [rootOf_eq after, lineage, ← rootOf_eq there] at top
    -- The root of whoever works in a scope has come to hold a transaction before.
    obtain ⟨x₀, unit₀, -, slot⟩ := (h.working before within).holds.root
    rw [top] at unit₀
    obtain rfl := Option.some.inj (unit.symm.trans unit₀)
    rcases slot with slot | slot <;> cases pending.symm.trans slot
  settled := by
    intro c thread s running settled
    obtain ⟨x₀, unit₀, begun⟩ := h.credited running (Stage.isPastWork_of_response? settled)
    obtain rfl := Option.some.inj (unit.symm.trans unit₀)
    exact absurd (h.order.unused unit root pending) begun

theorem stemmed_initial (managers : List Manager) : (initial managers).Stemmed where
  order := orderly_initial managers
  lived := by simp [Lived, initial]
  completing := by
    intro c u thread scope inner running
    cases running
  credited := by
    intro c u thread s running
    cases running
  held := by
    intro r n x unit
    cases unit
  working := by
    intro c u thread s scope running
    cases running

theorem Stemmed.stem (h : w.Stemmed) (stem : w.Stem r n) (step : w.Step l w') : w'.Stem r n :=
  stem.step h.order h.lived h.completing step

theorem Stemmed.step (h : w.Stemmed) (step : w.Step l w') : w'.Stemmed where
  order := h.order.step step
  lived := Lived.step h.lived step
  completing := Completing.step h.completing h.order step
  credited := Credited.step h.credited h.order step
  held := by
    intro r n x' unit live
    rcases step.slot_back unit live with ⟨x, before, live⟩ |
      ⟨rfl, v, y, z, unit₀, rfl, root, pending, rfl⟩
    · exact h.stem (h.held before live) step
    · exact h.foundAt root (h.order.isRoot_rootOf unit₀ root) pending
  working := by
    intro c u thread s' scope running within
    have kept {s : Stage} (before : w.operations[c]? = some ⟨u, thread, s⟩)
        (aside : s.isAside = false) (stem : w.Stem (w.rootOf u) scope.transaction) :
        w'.Stem (w'.rootOf u) scope.transaction := by
      obtain ⟨x, unit⟩ := h.order.seated before aside
      rw [step.rootOf_eq unit]
      exact h.stem stem step
    rcases step.scope_cases running within with ⟨s, before, within⟩ | ⟨waits, -, y, root, live⟩
    · exact kept before (isAside_of_isRunning (isRunning_of_scope within)) (h.working before within)
    · exact kept waits rfl (h.held root live)

theorem stemmed_run (managers : List Manager) (past : List Action) :
    ((initial managers).run past).Stemmed :=
  @run_induction Stemmed managers [] past (stemmed_initial managers) fun _ h step => h.step step

end World

end NestedWork
