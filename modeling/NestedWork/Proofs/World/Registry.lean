import NestedWork.Proofs.World.Admission
import NestedWork.Proofs.World.Verdict

/-!
# What a registry has seen to

A registry lets a root commit once every unit below it that it keeps is closed. It is asked once, as
the commit begins, and not again before the transaction is decided. So what it has seen to are the
units that were opened before. A unit that is opened under the root while the root commits may still
be open when the transaction has committed.

## Implementation notes

A unit that is closed stays closed, and a registry takes up units only as they are opened. What the
registry has found when it gave its leave can therefore be said of every later time.
-/

namespace NestedWork

/-- No status leads out of the terminal ones. -/
theorem Status.Leads.isTerminal {s s' : Status} (leads : s.Leads s')
    (closed : s.isTerminal = true) : s'.isTerminal = true := by
  cases leads with
  | revoke => rfl
  | start | succeed | fail => cases closed

namespace World

variable {w w' : World} {l : Label} {c m n r u v thread : Nat} {x : UnitOfWork}
  {managers : List Manager} {past earlier rest : List Action}

/-! ## Units that are closed -/

/-- A unit has a terminal status. -/
def HasClosed (w : World) (u : Nat) : Prop :=
  ∃ x, w.units[u]? = some x ∧ x.status.isTerminal = true

theorem HasClosed.step (h : w.HasClosed u) (order : w.Orderly) (step : w.Step l w') :
    w'.HasClosed u := by
  obtain ⟨x, unit, closed⟩ := h
  obtain ⟨x', unit', -⟩ := step.forth unit
  refine ⟨x', unit', ?_⟩
  rcases step.leads order unit unit' with same | leads
  · rwa [same]
  · exact leads.isTerminal closed

/-- A unit that is closed stays closed. -/
theorem HasClosed.run (h : ((initial managers).run past).HasClosed u) (rest : List Action) :
    ((initial managers).run (past ++ rest)).HasClosed u :=
  run_induction (P := fun w => w.HasClosed u) managers rest h fun order h step => h.step order step

/-- What a registry finds when it gives its leave: every unit that it keeps below the one that is
to commit is closed. -/
theorem hasClosed_of_admits? (admits : w.admits? m u = some true) (old : v < w.units.length)
    (kept : w.keeps m v = true) (below : w.hasAncestor v u = true) : w.HasClosed v := by
  obtain ⟨live, registry, mem⟩ : ∃ live, w.managers[m]? = some (.registry live) ∧ v ∈ live := by
    unfold keeps at kept
    split at kept
    next live registry => exact ⟨live, registry, by simpa using kept⟩
    next => cases kept
  simp only [admits?, registry, registryAdmits, descendantsIn, Option.some.injEq, List.all_eq_true,
    List.mem_filter] at admits
  have closed := admits v ⟨mem, below⟩
  have unit := List.getElem?_eq_getElem old
  refine ⟨_, unit, ?_⟩
  simpa only [isClosed, unit] using closed

/-! ## Leave -/

/-- Whoever has begun to work under a manager of this world was let through as its commit began. -/
theorem exists_decided (inside : (initial managers).isExternal m = false)
    (unit : ((initial managers).run past).units[r]? = some x) (built : x.manager = m)
    (started : ((initial managers).run past).Started r) :
    ∃ earlier thread later c, past = earlier ++ .commit r thread :: later ∧
      ((initial managers).run earlier).Permits r c (.commit r thread) ∧
      ((initial managers).run earlier).admits? m r = some true := by
  obtain ⟨earlier, a, later, c, rfl, permits⟩ := exists_permits started
  have grows : ((initial managers).run earlier).Extends
      ((initial managers).run (earlier ++ a :: later)) := by
    rw [run_append]
    exact extends_run _ _
  have managed {y : UnitOfWork} (before : ((initial managers).run earlier).units[r]? = some y) :
      y.manager = m := by
    obtain ⟨y', after, -, manager⟩ := grows.unit before
    obtain rfl := Option.some.inj (unit.symm.trans after)
    exact manager.symm.trans built
  cases permits with
  | @decided thread y before violates place leave =>
      have leave' := managed before ▸ leave
      exact ⟨earlier, thread, later, c, rfl, .decided before violates place leave, leave'⟩
  | told asked =>
      obtain ⟨thread, running⟩ := need_eq_canCommit.mp asked
      obtain ⟨y, before, external⟩ := asked_run managers earlier running
      rw [managed before, (extends_run _ earlier).isExternal, inside] at external
      cases external

/-- When the transaction of a root has committed, the registry of the root has let its commit
through, and from then on all was closed that it kept below the root and that had been opened by
then. -/
theorem registered_closed_of_committed (managers : List Manager) (past : List Action)
    (offered : Offered managers past) {m r n : Nat} {live : List Nat} {x : UnitOfWork}
    {t : Transaction} (registry : managers[m]? = some (.registry live))
    (unit : ((initial managers).run past).units[r]? = some x) (built : x.manager = m)
    (shared : Shared managers past r n)
    (transaction : ((initial managers).run past).transactions[n]? = some t)
    (committed : t.status = .committed) :
    ∃ earlier thread later c, past = earlier ++ .commit r thread :: later ∧
      ((initial managers).run earlier).Permits r c (.commit r thread) ∧
      ∀ between, earlier <+: between → between <+: past →
        ∀ v < ((initial managers).run earlier).units.length,
          ((initial managers).run between).keeps m v = true →
            ((initial managers).run between).hasAncestor v r = true →
              ((initial managers).run between).HasClosed v := by
  have woven := woven_run offered
  obtain ⟨x₀, unit₀, -, done⟩ := ((woven.trees (.inl shared)).ended woven.lived transaction
    committed).unit
  have started : ((initial managers).run past).Started r := ⟨x₀, unit₀, by simp [done]⟩
  have inside : (initial managers).isExternal m = false := by simp [isExternal, initial, registry]
  obtain ⟨earlier, thread, later, c, rfl, permits, admits⟩ :=
    exists_decided inside unit built started
  refine ⟨earlier, thread, later, c, rfl, permits, ?_⟩
  rintro between ⟨more, rfl⟩ - v old kept below
  have grows : ((initial managers).run earlier).Extends
      ((initial managers).run (earlier ++ more)) := by
    rw [run_append]
    exact extends_run _ _
  have closed := hasClosed_of_admits? admits old (grows.keeps old kept)
    ((grows.hasAncestor old r).symm.trans below)
  exact closed.run more

/-- A child commits under a registry, and then the root does. -/
def orderedCommits : List Action :=
  [.openUnit ⟨"root", "shared", none, 0, 0, .default⟩,
    .openUnit ⟨"child", "spare", some 0, 0, 0, .default⟩,
    .commit 1 0, .answer (.operation 2) (.response (.data ())),
    .commit 0 0, .answer (.operation 3) (.response (.data ()))]

/-- The child of a root that commits after it. -/
theorem registered_closed_of_committed_ordered :
    let w := (initial [.registry []]).run orderedCommits
    w.keeps 0 1 = true ∧ ∃ earlier thread later c,
      orderedCommits = earlier ++ .commit 0 thread :: later ∧
        ((initial [.registry []]).run earlier).Permits 0 c (.commit 0 thread) ∧
        ∀ between, earlier <+: between → between <+: orderedCommits →
          ∀ v < ((initial [.registry []]).run earlier).units.length,
            ((initial [.registry []]).run between).keeps 0 v = true →
              ((initial [.registry []]).run between).hasAncestor v 0 = true →
                ((initial [.registry []]).run between).HasClosed v := by
  intro w
  have offered : Offered [.registry []] orderedCommits := by
    intro before after n eq
    have mem : Action.call n .commit ∈ orderedCommits := by
      rw [eq]
      exact List.mem_append_right _ (List.mem_cons_self ..)
    simp [orderedCommits] at mem
  have shared : Shared [.registry []] orderedCommits 0 0 :=
    ⟨orderedCommits, List.prefix_rfl, .inl ⟨_, rfl, rfl⟩⟩
  exact ⟨rfl, registered_closed_of_committed _ _ offered rfl (x := _) rfl rfl shared rfl rfl⟩

/-- A unit is opened under a root whose capability is at work, and then the root commits. -/
def lateOpening : List Action :=
  [.openUnit ⟨"root", "shared", none, 0, 0, .default⟩, .commit 0 0,
    .openUnit ⟨"late", "spare", some 0, 0, 0, .default⟩]

/-- Not all that a registry keeps below a root is closed when the transaction of the root comes to
be committed. -/
theorem not_registered_closed_of_commits :
    ¬ ∀ (managers : List Manager) (past : List Action) (a : Action) (m r n v : Nat)
        (live : List Nat) (t t' : Transaction),
      let w := (initial managers).run past
      let w' := (initial managers).run (past ++ [a])
      Offered managers (past ++ [a]) → managers[m]? = some (.registry live) →
        (∀ u x, w'.units[u]? = some x → w'.rootOf u = r → x.manager = m) →
          Shared managers (past ++ [a]) r n →
            w.transactions[n]? = some t → t.status ≠ .committed →
              w'.transactions[n]? = some t' → t'.status = .committed →
                w'.keeps m v = true → w'.hasAncestor v r = true → w'.isClosed v = true := by
  intro all
  have here := all [.registry []] lateOpening
    (.answer (.operation 1) (.response (.data ()))) 0 0 0 1
    [] _ _ ?_ rfl ?_ ?_ rfl (by decide) rfl rfl rfl rfl
  · cases here
  · intro before after n eq
    have mem : Action.call n .commit ∈
        lateOpening ++ [.answer (.operation 1) (.response (.data ()))] := by
      rw [eq]
      exact List.mem_append_right _ (List.mem_cons_self ..)
    simp [lateOpening] at mem
  · rintro (_ | _ | u) x unit -
    · cases unit
      rfl
    · cases unit
      rfl
    · cases unit
  · exact ⟨_, List.prefix_rfl, .inl ⟨_, rfl, rfl⟩⟩

end World

end NestedWork
