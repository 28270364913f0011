import Mathlib.Data.List.Induction
import NestedWork.Proofs.World.Tree

/-!
# The transactions of a forest

Whoever works in the transaction of a tree is bound to its fate, from the step that opens the
transaction to the end of the run.

## Implementation notes

A client that commits a transaction holds the handle that owns it. The handle that owns the
transaction of a tree never leaves the root, so the runs here are those in which a client commits
only what no root has opened.
-/

namespace NestedWork.World

variable {w w' : World} {l : Label} {c u thread n : Nat} {x : UnitOfWork}

/-! ## Trees -/

/-- A unit works in a transaction: it holds it, or a commit of it works in it as the owner. -/
def Shares (w : World) (u n : Nat) : Prop :=
  (∃ x, w.units[u]? = some x ∧ x.slot = .live n) ∨
    ∃ (c thread : Nat) (s : Stage) (scope : Scope), w.operations[c]? = some ⟨u, thread, s⟩ ∧
      s.scope? = some scope ∧ scope.owner = true ∧ scope.transaction = n

/-- A root and the transaction of its tree, with the fate that they have in common. -/
structure Tree (w : World) (u n : Nat) : Prop where
  holds : w.Holds u n
  fate : ∃ x t, w.Fate u n x t

/-- Every step keeps a tree, unless a client commits its transaction. -/
theorem Tree.step (h : w.Tree u n) (order : w.Orderly) (lived : w.Lived) (s : w.Step l w')
    (other : l ≠ .commit n) : w'.Tree u n where
  holds := by
    obtain ⟨x, t, fate⟩ := h.fate
    exact h.holds.step (List.getElem?_eq_some_iff.mp fate.transaction).1 s
  fate := by
    obtain ⟨x, t, fate⟩ := h.fate
    exact fate.step order lived h.holds s other

/-- What a root works in before it has opened a transaction: nothing. -/
theorem Orderly.admission_of_pending (order : w.Orderly) (unit : w.units[u]? = some x)
    (root : x.isRoot = true) (pending : x.slot = .pending) {s : Stage}
    (running : w.operations[c]? = some ⟨u, thread, s⟩) (busy : s.isRunning = true) :
    s = .admission := by
  have shown := (order.shown running unit busy).2
  rw [order.unused unit root pending] at shown
  cases s with
  | admission => rfl
  | yielding r => cases r <;> cases shown
  | _ => cases shown

/-- A root that opens a transaction founds a tree. -/
theorem tree_foundAt (order : w.Orderly) (unit : w.units[u]? = some x) (root : x.isRoot = true)
    (pending : x.slot = .pending) : (w.foundAt u x).Tree u w.transactions.length where
  holds := by
    constructor
    · obtain ⟨x', after, -, lineage, -, -⟩ := forth_foundAt u x unit
      obtain ⟨x'', -, -, slot⟩ := back_foundAt after
      refine ⟨x', after, by simpa [UnitOfWork.isRoot, lineage] using root, .inl ?_⟩
      rcases slot with ⟨-, live⟩ | ⟨ne, -⟩
      · exact live
      · exact absurd rfl ne
    · intro v y after live
      obtain ⟨y', before, -, slot⟩ := back_foundAt after
      rcases slot with ⟨same, -⟩ | ⟨-, slot⟩
      · exact same
      · exact absurd (order.held before (slot ▸ live)).2 (Nat.lt_irrefl _)
    · intro c v thread s scope running within owner
      have busy := isRunning_of_scope within
      obtain ⟨y, before⟩ := order.seated running (isAside_of_isRunning busy)
      have lt := (order.entered running before within).2
      constructor
      · intro eq
        omega
      · rintro rfl
        obtain rfl := Option.some.inj (unit.symm.trans before)
        obtain rfl := order.admission_of_pending unit root pending running busy
        cases within
  fate := by
    obtain ⟨x', after, -, -, status, -⟩ := forth_foundAt u x unit
    rw [order.unused unit root pending] at status
    refine ⟨x', _, after, List.getElem?_concat_length .., ?_, ?_, ?_, ?_, ?_⟩
    · exact Nat.zero_le 1
    · exact fun _ => rfl
    · simp [status]
    · simp [status]
    · rintro c inner ⟨thread, scope, running⟩
      cases order.admission_of_pending unit root pending running rfl

/-- Who works in a transaction has done so before, or has just opened it. -/
theorem Shares.of_step (h : w'.Shares u n) (s : w.Step l w') : w.Shares u n ∨
    n = w.transactions.length ∧ ∃ v y z, w.units[v]? = some y ∧ u = w.rootOf v ∧
      w.units[u]? = some z ∧ z.slot = .pending ∧ w' = w.foundAt u z := by
  rcases h with ⟨x, unit, live⟩ | ⟨c, thread, s', scope, running, within, owner, rfl⟩
  · rcases s.slot_back unit live with before | founded
    · exact .inl (.inl before)
    · exact .inr founded
  · left
    rcases s.scope_back running within owner with ⟨s₀, before, same⟩ | live
    · exact .inr ⟨c, thread, s₀, scope, before, same, owner, rfl⟩
    · exact .inl live

/-! ## Forests -/

/-- A world in order, in which every transaction of a tree shares the fate of its root: those that
some root works in, and further ones. -/
structure Woven (known : Nat → Nat → Prop) (w : World) : Prop where
  order : w.Orderly
  lived : w.Lived
  trees : ∀ {u n : Nat}, known u n ∨ w.Shares u n → w.Tree u n

variable {known : Nat → Nat → Prop}

/-- Every step keeps the world woven, unless a client commits the transaction of a tree. -/
theorem Woven.step (h : w.Woven known) (s : w.Step l w')
    (other : ∀ u n, known u n ∨ w.Shares u n → l ≠ .commit n) : w'.Woven known where
  order := h.order.step s
  lived := Lived.step h.lived s
  trees := by
    intro u n shared
    have kept (before : known u n ∨ w.Shares u n) : w'.Tree u n :=
      (h.trees before).step h.order h.lived s (other u n before)
    rcases shared with known | shares
    · exact kept (.inl known)
    · rcases shares.of_step s with before | ⟨rfl, v, y, z, unit, rfl, root, pending, rfl⟩
      · exact kept (.inr before)
      · exact tree_foundAt h.order root (h.order.isRoot_rootOf unit root) pending

theorem woven_initial (managers : List Manager) : (initial managers).Woven fun _ _ => False where
  order := orderly_initial managers
  lived := by simp [Lived, initial]
  trees := by
    rintro u n (known | ⟨x, unit, live⟩ | ⟨c, thread, s, scope, running, within⟩)
    · exact known.elim
    · cases unit
    · cases running

/-! ## Runs -/

/-- The world after some actions of the environment. -/
def run (w : World) (actions : List Action) : World := actions.foldl perform w

@[simp] theorem run_nil (w : World) : w.run [] = w := rfl

@[simp] theorem run_append (w : World) (first second : List Action) :
    w.run (first ++ second) = (w.run first).run second :=
  List.foldl_append

@[simp] theorem run_cons (w : World) (a : Action) (rest : List Action) :
    w.run (a :: rest) = (w.perform a).run rest := rfl

/-- What every step keeps is kept by any number of them. -/
theorem Steps.preserve {P : World → Prop} (steps : w.Steps w') (start : P w)
    (step : ∀ {w w' : World} {l : Label}, P w → w.Step l w' → (∀ n, l ≠ .commit n) → P w') :
    P w' := by
  induction steps with
  | refl => exact start
  | tail _ s ih => exact step ih s (by simp)

/-- What every step keeps is kept by an action, if it is kept where a client commits. -/
theorem perform_induction {P : World → Prop} {a : Action} (start : P w)
    (seated : w.Seated) (commit : ∀ n w', a = .call n .commit → w.Step (.commit n) w' → P w')
    (step : ∀ {w w' : World} {l : Label}, P w → w.Step l w' → (∀ n, l ≠ .commit n) → P w') :
    P (w.perform a) := by
  rcases perform_cases seated a with ⟨n, eq, s⟩ | ⟨c, r, -, -, -, -, w₁, -, s, rest⟩ | s
  · exact commit n _ eq s
  · exact rest.preserve (step start s (by simp)) step
  · exact s.preserve start step

theorem orderly_run (managers : List Manager) (past : List Action) :
    ((initial managers).run past).Orderly := by
  induction past using List.reverseRecOn with
  | nil => exact orderly_initial managers
  | append_singleton past a ih =>
      rw [run_append]
      exact perform_induction ih ih.seated (fun _ _ _ s => ih.step s) fun h s _ => h.step s

/-- What every step keeps is kept by a run. -/
theorem run_induction {P : World → Prop} (managers : List Manager) {past : List Action}
    (rest : List Action) (start : P ((initial managers).run past))
    (step : ∀ {w w' : World} {l : Label}, w.Orderly → P w → w.Step l w' → P w') :
    P ((initial managers).run (past ++ rest)) := by
  induction rest using List.reverseRecOn with
  | nil => simpa using start
  | append_singleton rest a ih =>
      rw [← List.append_assoc, run_append]
      have order := orderly_run managers (past ++ rest)
      refine (perform_induction (P := fun w => w.Orderly ∧ P w) ⟨order, ih⟩ order.seated ?_ ?_).2
      · exact fun _ _ _ s => ⟨order.step s, step order ih s⟩
      · exact fun ⟨order, h⟩ s _ => ⟨order.step s, step order h s⟩

section Shared

variable (managers : List Manager)

/-- In the course of a run, a root has come to work in a transaction. -/
def Shared (past : List Action) (u n : Nat) : Prop :=
  ∃ earlier, earlier <+: past ∧ ((initial managers).run earlier).Shares u n

/-- No client commits the transaction of a tree: it owns only what it has opened itself. -/
def Offered (past : List Action) : Prop :=
  ∀ before after n, past = before ++ .call n .commit :: after → ∀ u, ¬ Shared managers before u n

variable {managers} {past rest : List Action}

theorem Offered.of_append (h : Offered managers (past ++ rest)) : Offered managers past := by
  intro before after n eq
  exact h before (after ++ rest) n (by simp [eq])

theorem Shared.append (h : Shared managers past u n) (rest : List Action) :
    Shared managers (past ++ rest) u n := by
  obtain ⟨earlier, isPrefix, shares⟩ := h
  exact ⟨earlier, isPrefix.trans (List.prefix_append past rest), shares⟩

/-- The transaction that a client commits is none that a root works in. -/
theorem Offered.commit_ne (h : Offered managers (past ++ [.call c .commit]))
    (shared : Shared managers past u n ∨ ((initial managers).run past).Shares u n) :
    Label.commit c ≠ .commit n := by
  intro eq
  obtain rfl := Label.commit.inj eq
  refine h past [] c rfl u (shared.elim id fun shares => ?_)
  exact ⟨past, List.prefix_rfl, shares⟩

/-- Every run of the forest is woven. -/
theorem woven_run (offered : Offered managers past) :
    ((initial managers).run past).Woven (Shared managers past) := by
  induction past using List.reverseRecOn with
  | nil =>
      have start := woven_initial managers
      refine ⟨start.order, start.lived, fun shared => ?_⟩
      have shares : (initial managers).Shares _ _ := shared.elim
        (fun ⟨_, isPrefix, shares⟩ => by rwa [List.prefix_nil.mp isPrefix] at shares) id
      exact start.trees (.inr shares)
  | append_singleton past a ih =>
      have before := ih offered.of_append
      have after : ((initial managers).run (past ++ [a])).Woven (Shared managers past) := by
        rw [run_append]
        apply perform_induction before before.order.seated
        · rintro n w' rfl s
          exact before.step s fun u m shared => offered.commit_ne shared
        · exact fun h s free => h.step s fun _ n _ => free n
      refine ⟨after.order, after.lived, fun shared => ?_⟩
      rcases shared with ⟨earlier, isPrefix, shares⟩ | shares
      · rcases List.prefix_concat_iff.mp isPrefix with rfl | isPrefix
        · exact after.trees (.inr shares)
        · exact after.trees (.inl ⟨earlier, isPrefix, shares⟩)
      · exact after.trees (.inr shares)

/-- What every step keeps of a tree is kept by a run. -/
theorem run_induction_of_shared {P : World → Prop} (offered : Offered managers (past ++ rest))
    (shared : Shared managers past u n) (start : P ((initial managers).run past))
    (step : ∀ {w w' : World} {l : Label}, w.Orderly → w.Lived → w.Tree u n → P w → w.Step l w' →
      P w') : P ((initial managers).run (past ++ rest)) := by
  induction rest using List.reverseRecOn with
  | nil => simpa using start
  | append_singleton rest a ih =>
      rw [← List.append_assoc] at offered ⊢
      have before := ih offered.of_append
      have woven := woven_run offered.of_append
      rw [run_append]
      refine (perform_induction (P := fun w => w.Woven (Shared managers (past ++ rest)) ∧ P w)
        ⟨woven, before⟩ woven.order.seated ?_ ?_).2
      · rintro m w' rfl s
        have tree := woven.trees (.inl (shared.append rest))
        exact ⟨woven.step s fun u m shared => offered.commit_ne shared,
          step woven.order woven.lived tree before s⟩
      · rintro w w' l ⟨woven, before⟩ s free
        have tree := woven.trees (.inl (shared.append rest))
        exact ⟨woven.step s fun _ m _ => free m, step woven.order woven.lived tree before s⟩

end Shared

end NestedWork.World
