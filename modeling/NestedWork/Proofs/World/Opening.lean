import Mathlib.Order.MinMax
import NestedWork.Proofs.World.Forest
import NestedWork.Proofs.World.Within

/-!
# What an opening does to a tree

A unit that is opened under a parent shortens the timeouts of all its ancestors to its own, where
they are longer, and gets the timeout that its parent then has. A transaction that the root holds
follows the root.

## Implementation notes

The code tells a shorter timeout from a longer one by the parent alone and lowers nothing in the
second case. Since no ancestor has a longer timeout than the parent, it makes no difference to lower
them in both cases, and so the two are one here.
-/

namespace NestedWork

namespace Duration

instance : LinearOrder Duration where
  le_refl a := Int.le_refl a.nanos
  le_trans a b c := Int.le_trans (a := a.nanos) (b := b.nanos) (c := c.nanos)
  lt_iff_le_not_ge a b := Int.lt_iff_le_and_not_ge (a := a.nanos) (b := b.nanos)
  le_antisymm a b le ge := congrArg Duration.mk (Int.le_antisymm le ge)
  le_total a b := Int.le_total a.nanos b.nanos
  toDecidableLE := inferInstance
  toDecidableLT := inferInstance
  toDecidableEq := inferInstance

end Duration

namespace UnitOfWork

/-- The unit with a timeout that is no longer than a given one. -/
def lowered (d : Duration) (x : UnitOfWork) : UnitOfWork :=
  { x with options := x.options.withTimeout (min x.options.timeout d) }

variable (d : Duration) (x : UnitOfWork)

@[simp] theorem lineage_lowered : (x.lowered d).lineage = x.lineage := rfl
@[simp] theorem slot_lowered : (x.lowered d).slot = x.slot := rfl
@[simp] theorem isolation_lowered : (x.lowered d).options.isolation = x.options.isolation := rfl
@[simp] theorem timeout_lowered :
    (x.lowered d).options.timeout = min x.options.timeout d := rfl

theorem lowered_of_le {d : Duration} {x : UnitOfWork} (le : x.options.timeout ≤ d) :
    x.lowered d = x := by
  rw [lowered, min_eq_left le]
  rfl

@[simp] theorem lowered_lowered : (x.lowered d).lowered d = x.lowered d :=
  lowered_of_le (min_le_right _ _)

end UnitOfWork

namespace World

variable {w w' : World} {u p k n : Nat} {x y : UnitOfWork} {o : Opening} {d : Duration}

/-! ## Lowering -/

theorem units_lowerUnit (w : World) (v : Nat) (d : Duration) (k : Nat) :
    (w.lowerUnit v d).units[k]? = (w.units[k]?).map fun x => if k = v then x.lowered d else x := by
  by_cases same : k = v
  · subst same
    simp only [if_true]
    unfold lowerUnit
    split
    next none => rw [none, Option.map_none]
    next x unit =>
      split
      next le => rw [unit, Option.map_some, UnitOfWork.lowered_of_le le]
      next lt =>
        have lowered : (w.modifyUnit k fun x => { x with
            options := x.options.withTimeout d }).units[k]? = some (x.lowered d) := by
          rw [UnitOfWork.lowered, min_eq_right (le_of_not_ge lt)]
          simp [modifyUnit, unit]
        rw [unit, Option.map_some, ← lowered]
        dsimp only
        split <;> rfl
  · have other : (w.modifyUnit v fun x => { x with
        options := x.options.withTimeout d }).units[k]? = w.units[k]? := by
      simp [modifyUnit, Ne.symm same]
    have id : (fun x : UnitOfWork => x) = fun x => if k = v then x.lowered d else x := by
      simp [same]
    rw [← id, Option.map_id']
    unfold lowerUnit
    split
    · rfl
    · split
      · rfl
      · dsimp only
        split <;> exact other

/-- The units after the timeouts of some were lowered. -/
theorem units_lowerUnits (vs : List Nat) (d : Duration) (w : World) (k : Nat) :
    (vs.foldl (fun w v => w.lowerUnit v d) w).units[k]? =
      (w.units[k]?).map fun x => if k ∈ vs then x.lowered d else x := by
  induction vs generalizing w with
  | nil => simp
  | cons v rest ih =>
      rw [List.foldl_cons, ih, units_lowerUnit, Option.map_map]
      congr 1
      funext x
      by_cases same : k = v <;> by_cases mem : k ∈ rest <;> simp [same, mem]

/-! ## Parents -/

/-- Every nested unit stands under its parent: it has the level of the parent and no shorter a
timeout. -/
structure Nested (w : World) : Prop where
  parent : ∀ {u p : Nat} {x : UnitOfWork} {rest : List Nat}, w.units[u]? = some x →
    x.lineage = p :: rest → ∃ y, w.units[p]? = some y ∧ y.lineage = rest ∧
      y.options.isolation = x.options.isolation ∧ y.options.timeout ≤ x.options.timeout
  nonneg : ∀ {u : Nat} {x : UnitOfWork}, w.units[u]? = some x → Duration.zero ≤ x.options.timeout

theorem exists_of_footings (same : w'.units.map UnitOfWork.footing = w.units.map UnitOfWork.footing)
    (unit : w.units[u]? = some x) : ∃ x', w'.units[u]? = some x' ∧ x'.footing = x.footing := by
  have here := congrArg (fun footings => footings[u]?) same
  simp only [List.getElem?_map, unit, Option.map_some] at here
  exact Option.map_eq_some_iff.mp here

namespace Nested

theorem of_footings (h : w.Nested)
    (same : w'.units.map UnitOfWork.footing = w.units.map UnitOfWork.footing) : w'.Nested where
  parent := by
    intro u p x' rest unit lineage
    obtain ⟨x, before, eq⟩ := exists_of_footings same.symm unit
    obtain ⟨y, parent, under, isolation, le⟩ :=
      h.parent before ((UnitOfWork.lineage_eq_of_footing eq).trans lineage)
    obtain ⟨y', parent', eq'⟩ := exists_of_footings same parent
    refine ⟨y', parent', (UnitOfWork.lineage_eq_of_footing eq').trans under, ?_⟩
    rw [UnitOfWork.options_eq_of_footing eq', ← UnitOfWork.options_eq_of_footing eq]
    exact ⟨isolation, le⟩
  nonneg := by
    intro u x' unit
    obtain ⟨x, before, eq⟩ := exists_of_footings same.symm unit
    rw [← UnitOfWork.options_eq_of_footing eq]
    exact h.nonneg before

/-- What a parent takes over from its child holds from a unit up to the root. -/
theorem along {P : Nat → UnitOfWork → Prop} (h : w.Nested)
    (up : ∀ {u p : Nat} {x y : UnitOfWork}, P u x → x.lineage = p :: y.lineage →
      y.options.isolation = x.options.isolation → y.options.timeout ≤ x.options.timeout → P p y)
    (unit : w.units[u]? = some x) (start : P u x) :
    ∀ k ∈ u :: x.lineage, ∃ y, w.units[k]? = some y ∧ P k y := by
  generalize eq : x.lineage = lineage
  induction lineage generalizing u x with
  | nil =>
      intro k mem
      rw [List.mem_singleton.mp mem]
      exact ⟨x, unit, start⟩
  | cons p rest ih =>
      obtain ⟨y, parent, rfl, isolation, le⟩ := h.parent unit eq
      intro k mem
      rcases List.mem_cons.mp mem with rfl | mem
      · exact ⟨x, unit, start⟩
      · exact ih parent (up start eq isolation le) rfl k mem

/-- A unit and its ancestors, each with its own ancestors, all of one level and the higher the less
patient. -/
theorem exists_above (h : w.Nested) (unit : w.units[u]? = some x) :
    ∀ k ∈ u :: x.lineage, ∃ y, w.units[k]? = some y ∧ (k :: y.lineage) <:+ (u :: x.lineage) ∧
      y.options.isolation = x.options.isolation ∧ y.options.timeout ≤ x.options.timeout := by
  refine h.along (P := fun k y => (k :: y.lineage) <:+ (u :: x.lineage) ∧
    y.options.isolation = x.options.isolation ∧ y.options.timeout ≤ x.options.timeout) ?_ unit
    ⟨List.suffix_rfl, rfl, le_refl _⟩
  rintro v p z y ⟨suffix, isolation, le⟩ lineage same shorter
  refine ⟨?_, same.trans isolation, shorter.trans le⟩
  rw [lineage] at suffix
  exact (List.suffix_cons ..).trans suffix

end Nested

/-! ## Openings -/

/-- What an opening has done to the units. -/
structure Opened (w : World) (o : Opening) (w' : World) : Prop where
  nonneg : Duration.zero ≤ o.options.timeout
  length : w'.units.length = w.units.length + 1
  /-- All ancestors are lowered. -/
  old : ∀ {k : Nat} {x : UnitOfWork}, w.units[k]? = some x → w'.units[k]? =
    some (if k ∈ w.lineageUnder o.parent then x.lowered o.options.timeout else x)
  new : ∃ x', w'.units[w.units.length]? = some x' ∧ x'.lineage = w.lineageUnder o.parent ∧
    x'.slot = .pending ∧ x'.options.isolation = o.options.isolation ∧
    (x'.lineage = [] → x'.options.timeout = o.options.timeout) ∧
    ∀ {p : Nat} {x : UnitOfWork} {rest : List Nat}, x'.lineage = p :: rest →
      w.units[p]? = some x → rest = x.lineage ∧ x.options.isolation = o.options.isolation ∧
        x'.options.timeout = min x.options.timeout o.options.timeout

/-- A unit has no parent, or one that is there. -/
theorem lineageUnder_cases (w : World) (parent : Option Nat) :
    ((∀ p, parent = some p → w.units[p]? = none) ∧ w.lineageUnder parent = []) ∨
      ∃ p x, parent = some p ∧ w.units[p]? = some x ∧ w.lineageUnder parent = p :: x.lineage := by
  cases parent with
  | none => exact .inl ⟨by simp, rfl⟩
  | some p =>
      cases unit : w.units[p]? with
      | none =>
          refine .inl ⟨fun q eq => ?_, by simp [lineageUnder, unit]⟩
          rw [← Option.some.inj eq, unit]
      | some x => exact .inr ⟨p, x, rfl, unit, by simp [lineageUnder, unit]⟩

/-- The options that an opening resolves to, and what is lowered: by the parent, or by nobody. -/
theorem resolve_cases {options : TransactionOptions} {lowers : List Nat}
    (resolved : w.resolve o.parent o.options = .ok (options, lowers)) :
    Duration.zero ≤ o.options.timeout ∧
      ((w.lineageUnder o.parent = [] ∧ options = o.options ∧ lowers = []) ∨
        ∃ p x, w.units[p]? = some x ∧ w.lineageUnder o.parent = p :: x.lineage ∧
          x.options.isolation = o.options.isolation ∧ options.isolation = o.options.isolation ∧
          options.timeout = min x.options.timeout o.options.timeout ∧
          (o.options.timeout < x.options.timeout ∧ lowers = p :: x.lineage ∨
            x.options.timeout ≤ o.options.timeout ∧ lowers = [])) := by
  unfold resolve at resolved
  split at resolved
  next => cases resolved
  next nonneg =>
    refine ⟨le_of_not_gt nonneg, ?_⟩
    rcases w.lineageUnder_cases o.parent with ⟨orphan, top⟩ | ⟨p, x, parent, unit, under⟩
    · have none : (o.parent.bind fun p => (w.units[p]?).map fun x => (p, x)) = none := by
        cases parent : o.parent with
        | none => rfl
        | some p => simp [orphan p parent]
      rw [none] at resolved
      cases resolved
      exact .inl ⟨top, rfl, rfl⟩
    · right
      refine ⟨p, x, unit, under, ?_⟩
      rw [parent, Option.bind_some, unit, Option.map_some] at resolved
      dsimp only at resolved
      unfold nest at resolved
      by_cases other : x.options.isolation ≠ o.options.isolation
      · rw [if_pos other] at resolved
        cases resolved
      · rw [if_neg other] at resolved
        have isolation := not_not.mp other
        by_cases shorter : o.options.timeout < x.options.timeout
        · rw [if_pos shorter] at resolved
          cases resolved
          exact ⟨isolation, rfl, (min_eq_right shorter.le).symm, .inl ⟨shorter, rfl⟩⟩
        · rw [if_neg shorter] at resolved
          cases resolved
          have le := le_of_not_gt shorter
          exact ⟨isolation, rfl, (min_eq_left le).symm, .inr ⟨le, rfl⟩⟩

/-- Whether or not anything is lowered, all ancestors end up no more patient than the opening. -/
theorem Nested.opened (h : w.Nested) (opened : w.openUnit o = .ok w') : w.Opened o w' := by
  unfold openUnit at opened
  split at opened
  next => cases opened
  next options lowers resolved =>
    obtain ⟨nonneg, cases⟩ := resolve_cases resolved
    have old {k : Nat} {x : UnitOfWork} (unit : w.units[k]? = some x) :
        (if k ∈ lowers then x.lowered o.options.timeout else x) =
          if k ∈ w.lineageUnder o.parent then x.lowered o.options.timeout else x := by
      rcases cases with ⟨top, -, rfl⟩ | ⟨p, y, parent, under, -, -, -, ⟨-, rfl⟩ | ⟨le, rfl⟩⟩
      · rw [top]
      · rw [under]
      · rw [under]
        simp only [List.not_mem_nil, if_false]
        split
        next mem =>
          obtain ⟨z, above, -, -, shorter⟩ := h.exists_above parent k mem
          obtain rfl := Option.some.inj (above.symm.trans unit)
          exact (UnitOfWork.lowered_of_le (shorter.trans le)).symm
        next => rfl
    have lowered := units_lowerUnits lowers o.options.timeout w
    obtain ⟨-, -, length, -⟩ := steps_lowerUnits lowers o.options.timeout w o.parent
    have units : w'.units = (lowers.foldl (fun w v => w.lowerUnit v o.options.timeout) w).units ++
        [w.openedUnit o options] := by
      cases opened
      split <;> rfl
    generalize lowers.foldl (fun w v => w.lowerUnit v o.options.timeout) w = w₁ at *
    refine ⟨nonneg, by rw [units, List.length_append, length, List.length_singleton], ?_, ?_⟩
    · intro k x unit
      have lt := (List.getElem?_eq_some_iff.mp unit).1
      rw [units, List.getElem?_append_left (length.symm ▸ lt), lowered, unit, Option.map_some,
        old unit]
    · refine ⟨w.openedUnit o options, ?_, rfl, rfl, ?_, ?_, ?_⟩
      · rw [units, ← length]
        exact List.getElem?_concat_length ..
      · rcases cases with ⟨-, rfl, -⟩ | ⟨-, -, -, -, -, isolation, -, -⟩
        · rfl
        · exact isolation
      · intro root
        rcases cases with ⟨-, rfl, -⟩ | ⟨p, x, -, under, -⟩
        · rfl
        · cases under.symm.trans root
      · intro p x rest lineage unit
        rcases cases with ⟨top, -⟩ | ⟨q, y, parent, under, isolation, -, timeout, -⟩
        · cases top.symm.trans lineage
        · cases under.symm.trans lineage
          obtain rfl := Option.some.inj (unit.symm.trans parent)
          exact ⟨rfl, isolation, timeout⟩

namespace Opened

/-- A unit after an opening is an old one or the new one. -/
theorem unit_cases (h : w.Opened o w') {x' : UnitOfWork} (unit : w'.units[k]? = some x') :
    (∃ x, w.units[k]? = some x ∧
      x' = if k ∈ w.lineageUnder o.parent then x.lowered o.options.timeout else x) ∨
      k = w.units.length := by
  rcases Nat.lt_trichotomy k w.units.length with lt | eq | gt
  · left
    have before := List.getElem?_eq_getElem lt
    exact ⟨_, before, Option.some.inj (unit.symm.trans (h.old before))⟩
  · exact .inr eq
  · rw [List.getElem?_eq_none (by rw [h.length]; omega)] at unit
    cases unit

end Opened

/-- The parent of a unit that is lowered is lowered as well. -/
theorem Nested.mem_lineageUnder (h : w.Nested) {parent : Option Nat} {rest : List Nat}
    (mem : k ∈ w.lineageUnder parent) (unit : w.units[k]? = some x)
    (lineage : x.lineage = p :: rest) : p ∈ w.lineageUnder parent := by
  rcases w.lineageUnder_cases parent with ⟨-, top⟩ | ⟨q, y, -, here, under⟩
  · rw [top] at mem
    cases mem
  · rw [under] at mem ⊢
    obtain ⟨x', unit', suffix, -⟩ := h.exists_above here k mem
    obtain rfl := Option.some.inj (unit.symm.trans unit')
    apply suffix.subset
    rw [lineage]
    exact List.mem_cons_of_mem _ (List.mem_cons_self ..)

/-- An opening keeps every unit under its parent. -/
theorem Nested.openUnit (h : w.Nested) (opened : w.Opened o w') : w'.Nested where
  parent := by
    intro u p x' rest unit lineage
    rcases opened.unit_cases unit with ⟨x, before, rfl⟩ | rfl
    · have same : x.lineage = p :: rest := by
        rw [← lineage]
        split <;> rfl
      obtain ⟨y, parent, under, isolation, le⟩ := h.parent before same
      refine ⟨_, opened.old parent, by rw [← under]; split <;> rfl, ?_, ?_⟩
      · split <;> split <;> exact isolation
      · by_cases mem : u ∈ w.lineageUnder o.parent
        · rw [if_pos mem, if_pos (h.mem_lineageUnder mem before same)]
          exact min_le_min_right _ le
        · rw [if_neg mem]
          split
          · exact (min_le_left _ _).trans le
          · exact le
    · obtain ⟨z, new, under, -, isolation, -, nested⟩ := opened.new
      obtain rfl := Option.some.inj (unit.symm.trans new)
      rcases w.lineageUnder_cases o.parent with ⟨-, top⟩ | ⟨q, y, -, parent, chain⟩
      · cases lineage.symm.trans (under.trans top)
      · cases lineage.symm.trans (under.trans chain)
        obtain ⟨-, level, timeout⟩ := nested lineage parent
        have mem : p ∈ w.lineageUnder o.parent := chain ▸ List.mem_cons_self ..
        have lowered := opened.old parent
        rw [if_pos mem] at lowered
        exact ⟨_, lowered, rfl, level.trans isolation.symm, timeout.ge⟩
  nonneg := by
    intro u x' unit
    rcases opened.unit_cases unit with ⟨x, before, rfl⟩ | rfl
    · split
      · exact le_min (h.nonneg before) opened.nonneg
      · exact h.nonneg before
    · obtain ⟨z, new, under, -, -, root, nested⟩ := opened.new
      obtain rfl := Option.some.inj (unit.symm.trans new)
      rcases w.lineageUnder_cases o.parent with ⟨-, top⟩ | ⟨q, y, -, parent, chain⟩
      · rw [root (under.trans top)]
        exact opened.nonneg
      · rw [(nested (under.trans chain) parent).2.2]
        exact le_min (h.nonneg parent) opened.nonneg

/-! ## The transaction of a root -/

/-- Every transaction that a unit holds has the terms of the unit. -/
structure Matched (w : World) : Prop where
  terms : ∀ {u n : Nat} {x : UnitOfWork}, w.units[u]? = some x → x.slot = .live n →
    w.termsOf? n = some x.terms

theorem terms_lower (t : Transaction) (now : Instant) (d : Duration) (i : Nat) :
    (t.runAt now (.begin (.lower d) :: Transaction.strides i)).terms =
      (t.isolation, min t.timeout d) := by
  rw [Transaction.runAt_cons, Transaction.terms_runAt _ _ (Transaction.isLower_strides i)]
  simp only [Transaction.perform, Transaction.begin, Transaction.enter, Transaction.shorten]
  by_cases lt : d < t.timeout
  · rw [if_pos lt, min_eq_right lt.le]
    rfl
  · rw [if_neg lt, min_eq_left (le_of_not_gt lt)]
    rfl

theorem termsOf?_lower {t : Transaction} (transaction : w.transactions[n]? = some t)
    (d : Duration) :
    (w.call n (.lower d)).1.termsOf? n = some (t.isolation, min t.timeout d) := by
  rw [call_eq]
  simp [termsOf?, transact, modifyTransaction, transaction, callSteps, terms_lower]

namespace Matched

theorem within (h : w.Matched) (kept : Within u w w') : w'.Matched where
  terms := by
    intro v n x' unit live
    rcases kept.slots unit live with ⟨x, before, held⟩ | same
    · obtain ⟨t, transaction, eq⟩ := Option.map_eq_some_iff.mp (h.terms before held)
      obtain ⟨x₀, before₀, footing⟩ := kept.back unit
      obtain rfl := Option.some.inj (before.symm.trans before₀)
      rw [kept.terms transaction, eq, UnitOfWork.terms, UnitOfWork.terms,
        UnitOfWork.options_eq_of_footing footing]
    · exact same

/-- A change of a transaction that no unit holds changes nothing for those that are held. -/
theorem modifyTransaction (h : w.Matched) {f : Transaction → Transaction}
    (free : ∀ (u : Nat) (x : UnitOfWork), w.units[u]? = some x → x.slot ≠ .live n) :
    (w.modifyTransaction n f).Matched where
  terms := by
    intro u m x unit live
    have ne : n ≠ m := by
      rintro rfl
      exact free u x unit live
    rw [← h.terms unit live]
    simp [termsOf?, World.modifyTransaction, ne]

/-- A root that is lowered takes its transaction along, and nobody else's. -/
theorem lowerUnit (h : w.Matched) (order : w.Orderly) (v : Nat) (d : Duration) :
    (w.lowerUnit v d).Matched := by
  unfold World.lowerUnit
  split
  next => exact h
  next x unit =>
    split
    next => exact h
    next lt =>
      let w₁ := w.modifyUnit v fun x => { x with options := x.options.withTimeout d }
      have here : w₁.units[v]? = some (x.lowered d) := by
        rw [UnitOfWork.lowered, min_eq_right (le_of_not_ge lt)]
        simp [w₁, modifyUnit, unit]
      have other {u : Nat} {y : UnitOfWork} (ne : v ≠ u) (unit' : w₁.units[u]? = some y) :
          w.units[u]? = some y := by
        simpa [w₁, modifyUnit, ne] using unit'
      dsimp only
      split
      next m held =>
        constructor
        intro u n y unit' live
        by_cases same : v = u
        · subst same
          obtain rfl := Option.some.inj (here.symm.trans unit')
          obtain rfl := Slot.live.inj (held.symm.trans live)
          obtain ⟨t, transaction, eq⟩ := Option.map_eq_some_iff.mp (h.terms unit held)
          obtain ⟨isolation, timeout⟩ := Prod.mk.inj eq
          rw [termsOf?_lower (w := w₁) transaction d, isolation, timeout]
          rfl
        · have before := other same unit'
          have ne : m ≠ n := by
            rintro rfl
            exact same (order.single unit before held live)
          rw [← h.terms before live]
          simp [termsOf?, call, World.modifyTransaction, modifyUnit, ne]
      next none =>
        constructor
        intro u n y unit' live
        by_cases same : v = u
        · subst same
          obtain rfl := Option.some.inj (here.symm.trans unit')
          exact absurd live (none n)
        · exact h.terms (other same unit') live

theorem lowerUnits (h : w.Matched) (order : w.Orderly) (vs : List Nat) (d : Duration) :
    (vs.foldl (fun w v => w.lowerUnit v d) w).Matched := by
  induction vs generalizing w with
  | nil => exact h
  | cons v rest ih =>
      have order' : (w.lowerUnit v d).Orderly :=
        (w.steps_lowerUnit v d).preserve order fun order step _ => order.step step
      exact ih (h.lowerUnit order v d) order'

/-- An opening keeps the roots and their transactions in step. -/
theorem openUnit (h : w.Matched) (order : w.Orderly) (opened : w.openUnit o = .ok w') :
    w'.Matched := by
  unfold World.openUnit at opened
  split at opened
  next => cases opened
  next options lowers _ =>
    have lowered := h.lowerUnits order lowers o.options.timeout
    obtain ⟨-, lineage, -⟩ := steps_lowerUnits lowers o.options.timeout w o.parent
    generalize lowers.foldl (fun w v => w.lowerUnit v o.options.timeout) w = w₁ at *
    have same : w.openedUnit o options = w₁.openedUnit o options := by
      simp only [openedUnit, lineage]
    have appended : Matched { w₁ with units := w₁.units ++ [w.openedUnit o options] } := by
      constructor
      intro u n x' unit live
      rw [same] at unit
      rcases back_openedUnit unit with before | ⟨-, rfl⟩
      · exact lowered.terms before live
      · cases live
    cases opened
    split <;> exact ⟨appended.terms⟩

end Matched

end World

end NestedWork
