import Mathlib.Order.Bounds.Basic
import NestedWork.Proofs.World.Opening

/-!
# The timeouts and levels of a tree

The root of a tree has the shortest timeout that any unit of the tree has asked for, and so has the
transaction that it holds. All units of a tree have one isolation level.

## Implementation notes

The units between the root and a new one may be more patient than the root. A sibling of theirs has
then lowered the root but not them, and an opening looks at the parent alone. So the units of a
chain agree on one timeout only under a condition, which is given here exactly.
-/

namespace NestedWork.World

variable {w w' : World} {u p k r n : Nat} {x y : UnitOfWork} {o : Opening} {d : Duration}
  {asked : List Duration} {managers : List Manager} {past : List Action}

/-! ## What was asked for -/

/-- The timeout that an action asks for, if it opens a unit. -/
def requested (w : World) : Action → List Duration
  | .openUnit o => if (w.openUnit o).isOk then [o.options.timeout] else []
  | _ => []

/-- The timeouts that the units opened in a run have asked for, in the order of the units. -/
def requests (w : World) : List Action → List Duration
  | [] => []
  | a :: rest => w.requested a ++ (w.perform a).requests rest

/-- The timeouts that the units of a tree have asked for. -/
def askedIn (w : World) (asked : List Duration) (r : Nat) : Set Duration :=
  {d | ∃ k, w.rootOf k = r ∧ asked[k]? = some d}

theorem requests_append (w : World) (first second : List Action) :
    w.requests (first ++ second) = w.requests first ++ (w.run first).requests second := by
  induction first generalizing w with
  | nil => rfl
  | cons a rest ih => rw [List.cons_append, requests, ih, requests, List.append_assoc, run_cons]

theorem requested_of_ne {a : Action} (other : ∀ o, a ≠ .openUnit o) : w.requested a = [] := by
  cases a with
  | openUnit o => exact absurd rfl (other o)
  | _ => rfl

/-! ## Roots -/

theorem rootOf_of_footings
    (same : w'.units.map UnitOfWork.footing = w.units.map UnitOfWork.footing) (k : Nat) :
    w'.rootOf k = w.rootOf k := by
  cases unit : w.units[k]? with
  | some x =>
      obtain ⟨x', unit', eq⟩ := exists_of_footings same unit
      rw [rootOf_eq unit, rootOf_eq unit', UnitOfWork.lineage_eq_of_footing eq]
  | none =>
      have none' : w'.units[k]? = none := by
        rw [List.getElem?_eq_none_iff] at unit ⊢
        have length := congrArg List.length same
        simp only [List.length_map] at length
        omega
      simp [rootOf, unit, none']

/-- A unit and its ancestors have one root, which is one of them. -/
theorem Nested.rootOf_above (h : w.Nested) (unit : w.units[u]? = some x) :
    w.rootOf u ∈ u :: x.lineage ∧ ∀ k ∈ u :: x.lineage, w.rootOf k = w.rootOf u := by
  constructor
  · rw [rootOf_eq unit]
    exact List.getLastD_mem_cons ..
  · intro k mem
    obtain ⟨y, above, root⟩ := h.along (P := fun k y => y.lineage.getLastD k = w.rootOf u)
      (fun root lineage _ _ => by rwa [lineage, List.getLastD_cons] at root) unit
      (rootOf_eq unit).symm k mem
    rw [rootOf_eq above, root]

/-- The root of a tree is no more patient than any unit, and of one level with it. -/
theorem Nested.root_le (h : w.Nested) (unit : w.units[u]? = some x)
    (root : w.units[w.rootOf u]? = some y) :
    y.options.isolation = x.options.isolation ∧ y.options.timeout ≤ x.options.timeout := by
  obtain ⟨y', root', -, rest⟩ := h.exists_above unit _ (h.rootOf_above unit).1
  obtain rfl := Option.some.inj (root.symm.trans root')
  exact rest

namespace Opened

theorem rootOf_old (h : w.Opened o w') (ne : k ≠ w.units.length) : w'.rootOf k = w.rootOf k := by
  cases unit : w.units[k]? with
  | some x =>
      rw [rootOf_eq unit, rootOf_eq (h.old unit)]
      split <;> rfl
  | none =>
      have none' : w'.units[k]? = none := by
        rw [List.getElem?_eq_none_iff] at unit ⊢
        rw [h.length]
        omega
      simp [rootOf, unit, none']

/-- The root of a new unit is the unit itself, or the root of its parent. -/
theorem rootOf_new (h : w.Opened o w') :
    w'.rootOf w.units.length = (w.lineageUnder o.parent).getLastD w.units.length := by
  obtain ⟨x', new, lineage, -⟩ := h.new
  rw [rootOf_eq new, lineage]

/-- An old root is the root of the new unit if it is among those that are lowered. -/
theorem rootOf_new_eq_iff (h : w.Opened o w') (nested : w.Nested) (unit : w.units[r]? = some y)
    (root : y.isRoot = true) :
    w'.rootOf w.units.length = r ↔ r ∈ w.lineageUnder o.parent := by
  rw [h.rootOf_new]
  rcases w.lineageUnder_cases o.parent with ⟨-, top⟩ | ⟨p, x, -, parent, under⟩
  · have lt := (List.getElem?_eq_some_iff.mp unit).1
    rw [top]
    simp only [List.getLastD_nil, List.not_mem_nil, iff_false]
    omega
  · rw [under, List.getLastD_cons, ← rootOf_eq parent]
    obtain ⟨mem, same⟩ := nested.rootOf_above parent
    constructor
    · rintro rfl
      exact mem
    · intro above
      rw [← same r above]
      exact rootOf_of_isRoot unit root

/-- The new unit has asked, and nothing else has changed in what was asked for. -/
theorem mem_askedIn (h : w.Opened o w') (length : asked.length = w.units.length) :
    d ∈ w'.askedIn (asked ++ [o.options.timeout]) r ↔
      d ∈ w.askedIn asked r ∨ w'.rootOf w.units.length = r ∧ d = o.options.timeout := by
  constructor
  · rintro ⟨k, root, request⟩
    rcases Nat.lt_trichotomy k asked.length with lt | rfl | gt
    · rw [List.getElem?_append_left lt] at request
      rw [h.rootOf_old (by omega)] at root
      exact .inl ⟨k, root, request⟩
    · rw [List.getElem?_concat_length] at request
      exact .inr ⟨length ▸ root, (Option.some.inj request).symm⟩
    · rw [List.getElem?_eq_none (by simp; omega)] at request
      cases request
  · rintro (⟨k, root, request⟩ | ⟨root, rfl⟩)
    · have lt := (List.getElem?_eq_some_iff.mp request).1
      refine ⟨k, ?_, by rw [List.getElem?_append_left lt, request]⟩
      rw [h.rootOf_old (by omega), root]
    · refine ⟨w.units.length, root, ?_⟩
      rw [← length]
      exact List.getElem?_concat_length ..

end Opened

/-! ## The shortest timeout -/

/-- Every unit stands under its parent, and every root has the shortest timeout that was asked for
in its tree. -/
structure Graded (w : World) (asked : List Duration) : Prop where
  nested : w.Nested
  length : asked.length = w.units.length
  least : ∀ {r : Nat} {y : UnitOfWork}, w.units[r]? = some y → y.isRoot = true →
    IsLeast (w.askedIn asked r) y.options.timeout

theorem graded_initial (managers : List Manager) : (initial managers).Graded [] where
  nested := by
    constructor
    · intro u p x rest unit
      cases unit
    · intro u x unit
      cases unit
  length := rfl
  least := by
    intro r y unit
    cases unit

namespace Graded

theorem of_footings (h : w.Graded asked)
    (same : w'.units.map UnitOfWork.footing = w.units.map UnitOfWork.footing) :
    w'.Graded asked where
  nested := h.nested.of_footings same
  length := by
    have length := congrArg List.length same
    simp only [List.length_map] at length
    rw [h.length, length]
  least := by
    intro r y' unit root
    obtain ⟨y, before, eq⟩ := exists_of_footings same.symm unit
    rw [← UnitOfWork.options_eq_of_footing eq]
    have asks : w'.askedIn asked r = w.askedIn asked r := by
      simp only [askedIn, rootOf_of_footings same]
    rw [asks]
    apply h.least before
    simpa [UnitOfWork.isRoot, UnitOfWork.lineage_eq_of_footing eq] using root

/-- An opening lowers the root of the tree where it asks for less. -/
theorem openUnit (h : w.Graded asked) (order : w.Orderly) (opened : w.Opened o w') :
    w'.Graded (asked ++ [o.options.timeout]) where
  nested := h.nested.openUnit opened
  length := by rw [List.length_append, h.length, opened.length, List.length_singleton]
  least := by
    intro r y' unit root
    have asks {d : Duration} := opened.mem_askedIn (d := d) (r := r) h.length
    rcases opened.unit_cases unit with ⟨y, before, rfl⟩ | rfl
    · have top : y.isRoot = true := by
        rw [← root]
        split <;> rfl
      have least := h.least before top
      have under := opened.rootOf_new_eq_iff h.nested before top
      by_cases mem : r ∈ w.lineageUnder o.parent
      · have same : w'.askedIn (asked ++ [o.options.timeout]) r =
            insert o.options.timeout (w.askedIn asked r) := by
          ext d
          simp only [asks, under.mpr mem, true_and, Set.mem_insert_iff, or_comm]
        rw [if_pos mem, same, UnitOfWork.timeout_lowered, min_comm]
        exact least.insert _
      · have same : w'.askedIn (asked ++ [o.options.timeout]) r = w.askedIn asked r := by
          ext d
          simp only [asks, mt under.mp mem, false_and, or_false]
        rw [if_neg mem, same]
        exact least
    · obtain ⟨x', new, lineage, -, -, alone, -⟩ := opened.new
      obtain rfl := Option.some.inj (unit.symm.trans new)
      have none : y'.lineage = [] := by simpa [UnitOfWork.isRoot] using root
      have itself : w'.rootOf w.units.length = w.units.length := rootOf_of_isRoot unit root
      rw [alone none]
      constructor
      · exact asks.mpr (.inr ⟨itself, rfl⟩)
      · intro d mem
        rcases asks.mp mem with ⟨k, away, request⟩ | ⟨-, rfl⟩
        · have lt := (List.getElem?_eq_some_iff.mp request).1
          rw [h.length] at lt
          have before := List.getElem?_eq_getElem lt
          obtain ⟨z, above, -⟩ := order.rooted before
          rw [← rootOf_eq before, away] at above
          simp at above
        · exact le_refl _

end Graded

/-- Nothing but an opening changes what a unit stands on. -/
theorem footings_perform {a : Action} (other : ∀ o, a ≠ .openUnit o) :
    (w.perform a).units.map UnitOfWork.footing = w.units.map UnitOfWork.footing := by
  by_cases lowering : ∃ n timeout, a = .call n (.lower timeout)
  · obtain ⟨n, timeout, rfl⟩ := lowering
    rfl
  · obtain ⟨u, within⟩ := w.exists_within other fun n timeout eq => lowering ⟨n, timeout, eq⟩
    exact within.footings

theorem perform_openUnit (w : World) (o : Opening) :
    (∃ w', w.openUnit o = .ok w' ∧ w.perform (.openUnit o) = w' ∧
      w.requested (.openUnit o) = [o.options.timeout]) ∨
      w.perform (.openUnit o) = w ∧ w.requested (.openUnit o) = [] := by
  cases opened : w.openUnit o with
  | error v =>
      right
      simp [perform, requested, opened, Except.toOption, Except.isOk, Except.toBool]
  | ok w' =>
      left
      exact ⟨w', rfl, by simp [perform, opened, Except.toOption],
        by simp [requested, opened, Except.isOk, Except.toBool]⟩

/-- In every run the units are graded by what was asked for. -/
theorem graded_run (managers : List Manager) (past : List Action) :
    ((initial managers).run past).Graded ((initial managers).requests past) := by
  induction past using List.reverseRecOn with
  | nil => exact graded_initial managers
  | append_singleton past a ih =>
      rw [requests_append, run_append]
      generalize (initial managers).requests past = asked at *
      have order := orderly_run managers past
      generalize (initial managers).run past = w at *
      change (w.perform a).Graded (asked ++ (w.requested a ++ []))
      rw [List.append_nil]
      by_cases opening : ∃ o, a = .openUnit o
      · obtain ⟨o, rfl⟩ := opening
        rcases w.perform_openUnit o with ⟨w', opened, eq, request⟩ | ⟨eq, request⟩
        · rw [eq, request]
          exact ih.openUnit order (ih.nested.opened opened)
        · rwa [eq, request, List.append_nil]
      · have other : ∀ o, a ≠ .openUnit o := fun o eq => opening ⟨o, eq⟩
        rw [requested_of_ne other, List.append_nil]
        exact ih.of_footings (footings_perform other)

/-! ## One timeout on a chain -/

theorem min_eq_min_iff_of_le {a b : Duration} (le : b ≤ a) (d : Duration) :
    min a d = min b d ↔ d ≤ b ∨ a = b := by
  constructor
  · intro eq
    by_cases late : d ≤ b
    · exact .inl late
    · right
      have lt := lt_of_not_ge late
      rw [min_eq_left lt.le] at eq
      rcases min_choice a d with first | second
      · exact first.symm.trans eq
      · exact absurd (second.symm.trans eq) lt.ne'
  · rintro (late | rfl)
    · rw [min_eq_right late, min_eq_right (late.trans le)]
    · rfl

/-- The units of the chain of a new unit agree on one timeout in one case only: the new unit has
asked for no more than the root has had so far, or its parent has had the root's timeout. -/
theorem Graded.agree_iff (h : w.Graded asked) (order : w.Orderly) (opened : w.Opened o w')
    (root : w'.units[w'.rootOf w.units.length]? = some y) :
    (∀ v x, v ∈ w'.lineageUnder (some w.units.length) → w'.units[v]? = some x →
      x.options.timeout = y.options.timeout) ↔
    ∀ p x z, o.parent = some p → w.units[p]? = some x → w.units[w.rootOf p]? = some z →
      o.options.timeout ≤ z.options.timeout ∨ x.options.timeout = z.options.timeout := by
  have nested := h.nested.openUnit opened
  obtain ⟨x', new, lineage, -, -, alone, under⟩ := opened.new
  have chain : w'.lineageUnder (some w.units.length) = w.units.length :: x'.lineage := by
    simp [lineageUnder, new]
  -- The root is the least patient unit of the chain and the new one is the most patient.
  have ends : (∀ v x, v ∈ w'.lineageUnder (some w.units.length) → w'.units[v]? = some x →
      x.options.timeout = y.options.timeout) ↔ x'.options.timeout = y.options.timeout := by
    rw [chain]
    constructor
    · intro all
      exact all _ x' (List.mem_cons_self ..) new
    · intro eq v x mem unit
      obtain ⟨x₀, unit₀, -, -, le⟩ := nested.exists_above new v mem
      obtain rfl := Option.some.inj (unit.symm.trans unit₀)
      have same := (nested.rootOf_above new).2 v mem
      exact le_antisymm (le.trans eq.le) (nested.root_le unit (same ▸ root)).2
  rw [ends]
  rcases w.lineageUnder_cases o.parent with ⟨orphan, top⟩ | ⟨p, x, parent, unit, chain⟩
  · constructor
    · intro _ p x z parent unit
      cases (orphan p parent).symm.trans unit
    · intro _
      rw [opened.rootOf_new, top, List.getLastD_nil] at root
      rw [Option.some.inj (new.symm.trans root)]
  · obtain ⟨z, above, -⟩ := order.rooted unit
    rw [← rootOf_eq unit] at above
    have same : w'.rootOf w.units.length = w.rootOf p := by
      rw [opened.rootOf_new, chain, List.getLastD_cons, rootOf_eq unit]
    have mem : w.rootOf p ∈ w.lineageUnder o.parent := chain ▸ (h.nested.rootOf_above unit).1
    have lowered := opened.old above
    rw [if_pos mem, ← same, root] at lowered
    obtain rfl := Option.some.inj lowered
    obtain ⟨-, -, timeout⟩ := under (lineage.trans chain) unit
    rw [timeout, UnitOfWork.timeout_lowered,
      min_eq_min_iff_of_le (h.nested.root_le unit above).2]
    constructor
    · intro cases p' x₀ z₀ parent' unit' above'
      obtain rfl := Option.some.inj (parent.symm.trans parent')
      obtain rfl := Option.some.inj (unit.symm.trans unit')
      obtain rfl := Option.some.inj (above.symm.trans above')
      exact cases
    · intro cases
      exact cases p x z parent unit above

/-- The timeouts of the chain of a unit that has just been opened.

The root has the shortest timeout that any unit of the tree has asked for, and no unit of the chain
has a shorter one. All of them have that timeout exactly if the new unit has asked for no more than
the root had, or its parent had the timeout of the root. -/
theorem timeout_of_chain (managers : List Manager) (past : List Action) (o : Opening) (w' : World)
    (opened : ((initial managers).run past).openUnit o = .ok w') :
    let w := (initial managers).run past
    let u := w.units.length
    let asked := (initial managers).requests (past ++ [.openUnit o])
    ∃ y, w'.units[w'.rootOf u]? = some y ∧
      IsLeast (w'.askedIn asked (w'.rootOf u)) y.options.timeout ∧
      (∀ v x, v ∈ w'.lineageUnder (some u) → w'.units[v]? = some x →
        y.options.timeout ≤ x.options.timeout) ∧
      ((∀ v x, v ∈ w'.lineageUnder (some u) → w'.units[v]? = some x →
        x.options.timeout = y.options.timeout) ↔
      ∀ p x z, o.parent = some p → w.units[p]? = some x → w.units[w.rootOf p]? = some z →
        o.options.timeout ≤ z.options.timeout ∨ x.options.timeout = z.options.timeout) := by
  intro w u asked
  have graded := graded_run managers past
  have order := orderly_run managers past
  have done := graded.nested.opened opened
  have eq : (initial managers).run (past ++ [.openUnit o]) = w' := by
    rw [run_append]
    exact congrArg (fun r => (Except.toOption r).getD w) opened
  have graded' := graded_run managers (past ++ [.openUnit o])
  have order' := orderly_run managers (past ++ [.openUnit o])
  rw [eq] at graded' order'
  obtain ⟨x', new, -⟩ := done.new
  obtain ⟨y, root, top⟩ := order'.rooted new
  rw [← rootOf_eq new] at root
  refine ⟨y, root, graded'.least root top, ?_, graded.agree_iff order done root⟩
  intro v x mem unit
  have chain : w'.lineageUnder (some u) = u :: x'.lineage := by simp [lineageUnder, new, u, w]
  rw [chain] at mem
  have same := (graded'.nested.rootOf_above new).2 v mem
  exact (graded'.nested.root_le unit (same ▸ root)).2

/-- A root with a patient child, and a second child that lowers the root alone. -/
def lopsided : List Action :=
  [.openUnit ⟨"root", "tree", none, 0, 0, .ofLevel .default (.ofSeconds 60)⟩,
    .openUnit ⟨"patient", "", some 0, 0, 0, .ofLevel .default (.ofSeconds 60)⟩,
    .openUnit ⟨"hasty", "", some 0, 0, 0, .ofLevel .default (.ofSeconds 10)⟩]

/-- A child of the patient unit stays as patient as its parent, although the root is not. -/
theorem timeout_of_chain_lopsided :
    let w := (initial [.permissive]).run lopsided
    let o : Opening := ⟨"late", "", some 1, 0, 0, .ofLevel .default (.ofSeconds 20)⟩
    ∃ w' y, w.openUnit o = .ok w' ∧ w'.units[0]? = some y ∧
      IsLeast (w'.askedIn ((initial [.permissive]).requests (lopsided ++ [.openUnit o])) 0)
        y.options.timeout ∧
      ¬ ∀ v x, v ∈ w'.lineageUnder (some 3) → w'.units[v]? = some x →
        x.options.timeout = y.options.timeout := by
  intro w o
  obtain ⟨w', opened⟩ : ∃ w', w.openUnit o = .ok w' := ⟨_, rfl⟩
  obtain ⟨y, root, least, -, agree⟩ := timeout_of_chain [.permissive] lopsided o w' opened
  cases opened
  refine ⟨_, y, rfl, root, least, fun all => ?_⟩
  have lies := agree.mp all 1 _ _ rfl rfl rfl
  revert lies
  decide

/-! ## The transaction of the root -/

/-- No client shortens the timeout of a transaction that a root holds. -/
def Unlowered (managers : List Manager) (past : List Action) : Prop :=
  ∀ before after n timeout, past = before ++ .call n (.lower timeout) :: after →
    ∀ (u : Nat) (x : UnitOfWork), ((initial managers).run before).units[u]? = some x →
      x.slot ≠ .live n

theorem Unlowered.of_append {rest : List Action} (h : Unlowered managers (past ++ rest)) :
    Unlowered managers past := by
  intro before after n timeout eq
  exact h before (after ++ rest) n timeout (by simp [eq])

/-- In every run the roots and the transactions that they hold have the same terms. -/
theorem matched_run (unlowered : Unlowered managers past) :
    ((initial managers).run past).Matched := by
  induction past using List.reverseRecOn with
  | nil =>
      constructor
      intro u n x unit
      cases unit
  | append_singleton past a ih =>
      have before := ih unlowered.of_append
      rw [run_append]
      change (World.perform _ a).Matched
      by_cases opening : ∃ o, a = .openUnit o
      · obtain ⟨o, rfl⟩ := opening
        rcases perform_openUnit _ o with ⟨w', opened, eq, -⟩ | ⟨eq, -⟩
        · rw [eq]
          exact before.openUnit (orderly_run managers past) opened
        · rwa [eq]
      · by_cases lowering : ∃ n timeout, a = .call n (.lower timeout)
        · obtain ⟨n, timeout, rfl⟩ := lowering
          exact before.modifyTransaction (unlowered past [] n timeout rfl)
        · obtain ⟨u, within⟩ := exists_within _ (fun o eq => opening ⟨o, eq⟩)
            fun n timeout eq => lowering ⟨n, timeout, eq⟩
          exact before.within within

/-- What the units of a tree and its transaction agree on, in every run.

No timeout is negative, or shorter than that of the parent. The root of every unit has the level of
the unit and the shortest timeout that any unit of the tree has asked for. The transaction that the
root holds has the level and the timeout of the root, whenever it was opened. -/
theorem options_of_tree (managers : List Manager) (past : List Action) :
    let w := (initial managers).run past
    let asked := (initial managers).requests past
    ∀ (u : Nat) (x : UnitOfWork), w.units[u]? = some x →
      Duration.zero ≤ x.options.timeout ∧
      (∀ p, x.parent? = some p → ∃ y, w.units[p]? = some y ∧
        y.options.timeout ≤ x.options.timeout) ∧
      ∃ y, w.units[w.rootOf u]? = some y ∧ y.isRoot = true ∧
        y.options.isolation = x.options.isolation ∧
        IsLeast (w.askedIn asked (w.rootOf u)) y.options.timeout ∧
        (Unlowered managers past → ∀ n, y.slot = .live n → ∃ t, w.transactions[n]? = some t ∧
          t.isolation = y.options.isolation ∧ t.timeout = y.options.timeout) := by
  intro w asked u x unit
  have graded := graded_run managers past
  obtain ⟨y, root, top⟩ := (orderly_run managers past).rooted unit
  rw [← rootOf_eq unit] at root
  refine ⟨graded.nested.nonneg unit, ?_, y, root, top, (graded.nested.root_le unit root).1,
    graded.least root top, ?_⟩
  · intro p parent
    obtain ⟨rest, lineage⟩ := List.head?_eq_some_iff.mp parent
    obtain ⟨y, under, -, -, le⟩ := graded.nested.parent unit lineage
    exact ⟨y, under, le⟩
  · intro unlowered n live
    have same := (matched_run unlowered).terms root live
    obtain ⟨t, transaction, eq⟩ := Option.map_eq_some_iff.mp same
    obtain ⟨isolation, timeout⟩ := Prod.mk.inj eq
    exact ⟨t, transaction, isolation, timeout⟩

/-- A child shortens the timeout of a root that is at work in its transaction. -/
def hurried : List Action :=
  [.openUnit ⟨"root", "tree", none, 0, 0, .ofLevel .default (.ofSeconds 60)⟩, .commit 0 0,
    .openUnit ⟨"hasty", "", some 0, 0, 0, .ofLevel .default (.ofSeconds 10)⟩]

/-- A transaction that was opened before its tree was lowered follows its root. -/
theorem options_of_tree_hurried :
    let w := (initial [.permissive]).run hurried
    (∃ y, w.units[0]? = some y ∧ y.slot = .live 0) ∧ Unlowered [.permissive] hurried ∧
    ∃ x y t, w.units[1]? = some x ∧ x.parent? = some 0 ∧ w.units[0]? = some y ∧
      Duration.zero ≤ x.options.timeout ∧ y.options.timeout ≤ x.options.timeout ∧
      IsLeast (w.askedIn [.ofSeconds 60, .ofSeconds 10] 0) y.options.timeout ∧
      w.transactions[0]? = some t ∧ t.isolation = x.options.isolation ∧
      t.timeout = y.options.timeout := by
  intro w
  have unlowered : Unlowered [.permissive] hurried := by
    intro before after n timeout eq
    have mem : Action.call n (.lower timeout) ∈ hurried := by simp [eq]
    simp [hurried] at mem
  obtain ⟨x, unit, parent⟩ : ∃ x, w.units[1]? = some x ∧ x.parent? = some 0 := ⟨_, rfl, rfl⟩
  obtain ⟨nonneg, above, y, root, -, isolation, least, follows⟩ :=
    options_of_tree [.permissive] hurried 1 x unit
  obtain ⟨y', under, le⟩ := above 0 parent
  have here : w.units[0]? = some y := root
  obtain rfl := Option.some.inj (here.symm.trans under)
  have live : y.slot = .live 0 := by
    cases here
    rfl
  obtain ⟨t, transaction, level, timeout⟩ := follows unlowered 0 live
  exact ⟨⟨y, here, live⟩, unlowered, x, y, t, unit, parent, here, nonneg, le, least, transaction,
    level.trans isolation, timeout⟩

end NestedWork.World
