import Mathlib.Logic.Equiv.Basic
import NestedWork.Proofs.World.Locality
import NestedWork.Proofs.World.Outcome
import NestedWork.Proofs.World.Reference

/-!
# Shares of the world

A share is what belongs to one tree: its units, its transactions, and the operations that are made
on it. The view of a share is the tree by itself, as if nothing else had ever been.

## Implementation notes

In the view everything is numbered by its place in the share, and time has not passed. One thread is
exchanged for another, so that a share looks the same whoever works on it.

The view is the part of the world that the share picks out. What is done in it is so done in the
world under the names of the share, and the share grows by what comes about.
-/

namespace NestedWork

/-! ## There and back -/

section Rename

variable {ν μ : Naming}

theorem UnitOfWork.rename_rename (x : UnitOfWork)
    (units : ∀ a ∈ x.lineage, μ.unit (ν.unit a) = a)
    (transactions : ∀ n ∈ x.transactions, μ.transaction (ν.transaction n) = n)
    (threads : ∀ t, μ.thread (ν.thread t) = t) : (x.rename ν).rename μ = x := by
  have lineage : (x.lineage.map ν.unit).map μ.unit = x.lineage := by
    rw [List.map_map]
    exact (List.map_congr_left units).trans (List.map_id _)
  have slot : (x.slot.rename ν).rename μ = x.slot := by
    cases held : x.slot with
    | live n =>
        exact congrArg Slot.live (transactions n (UnitOfWork.mem_transactions.mpr (.inl held)))
    | _ => rfl
  have current : (x.current.map ν.transaction).map μ.transaction = x.current := by
    cases within : x.current with
    | none => rfl
    | some n =>
        exact congrArg some (transactions n (UnitOfWork.mem_transactions.mpr (.inr within)))
  simp only [rename, lineage, slot, current, threads]

/-- Only the name of its own thread matters to a unit. -/
theorem UnitOfWork.rename_congr {x : UnitOfWork} (units : ν.unit = μ.unit)
    (transactions : ν.transaction = μ.transaction)
    (thread : ν.thread x.thread = μ.thread x.thread) : x.rename ν = x.rename μ := by
  have slot : x.slot.rename ν = x.slot.rename μ := by
    cases x.slot <;> simp only [Slot.rename, transactions]
  simp only [rename, units, transactions, thread, slot]

theorem Stage.rename_rename (s : Stage)
    (transactions : ∀ n ∈ s.transactions, μ.transaction (ν.transaction n) = n)
    (threads : ∀ t, μ.thread (ν.thread t) = t) : (s.rename ν).rename μ = s := by
  have scope {scope : Scope} (here : s.scope? = some scope) :
      (scope.rename ν).rename μ = scope := by
    have same := transactions _ (Stage.mem_transactions.mpr (.inl ⟨scope, here, rfl⟩))
    simp only [Scope.rename, same, threads]
  have inner {i : Inner} (here : s.inner? = some i) : (i.rename ν).rename μ = i := by
    have same := transactions _ (Stage.mem_transactions.mpr (.inr ⟨i, here, rfl⟩))
    simp only [Inner.rename, same]
  cases s with
  | work => exact congrArg work (scope rfl)
  | leaving _ e => exact congrArg₂ (leaving · e) (scope rfl) (inner rfl)
  | discarding _ e => exact congrArg₂ (discarding · e) (scope rfl) (inner rfl)
  | completing => exact congrArg₂ completing (scope rfl) (inner rfl)
  | yielding r => exact congrArg (yielding r) (inner rfl)
  | surrender => exact congrArg surrender (inner rfl)
  | _ => rfl

theorem Operation.rename_rename (o : Operation) (unit : μ.unit (ν.unit o.unit) = o.unit)
    (transactions : ∀ n ∈ o.stage.transactions, μ.transaction (ν.transaction n) = n)
    (threads : ∀ t, μ.thread (ν.thread t) = t) : (o.rename ν).rename μ = o := by
  simp only [rename, unit, threads, o.stage.rename_rename transactions threads]

end Rename

/-! ## Shares -/

/-- What belongs to a tree, each in the order in which it came about, and the thread that works on
it. -/
structure Share where
  units : List Nat
  transactions : List Nat
  operations : List Nat
  thread : Nat

namespace Share

/-- The names of what is in the share, and of what is going to be. The thread that works on it is
called home. -/
def naming (s : Share) (home : Nat) (w : World) : Naming where
  unit := nameIn s.units w.units.length
  transaction := nameIn s.transactions w.transactions.length
  operation := nameIn s.operations w.operations.length
  thread := Equiv.swap home s.thread

/-- The places of things in the share. -/
def places (s : Share) (home : Nat) : Naming where
  unit := fun u => s.units.idxOf u
  transaction := fun n => s.transactions.idxOf n
  operation := fun c => s.operations.idxOf c
  thread := Equiv.swap home s.thread

/-- The share with all that is new in another world. -/
def grow (s : Share) (w w' : World) : Share :=
  { s with
    units := s.units ++
      List.range' w.units.length (w'.units.length - w.units.length)
    transactions := s.transactions ++
      List.range' w.transactions.length (w'.transactions.length - w.transactions.length)
    operations := s.operations ++
      List.range' w.operations.length (w'.operations.length - w.operations.length) }

end Share

/-- What is in a share, by itself. -/
def World.view (w : World) (home : Nat) (s : Share) : World where
  now := .zero
  epoch := ⟨0, 0⟩
  transactions := (gather w.transactions s.transactions).mapIdx fun n t => t.timeless n
  units := (gather w.units s.units).map (UnitOfWork.rename (s.places home))
  managers := w.managers.map fun m =>
    (m.keep fun u => decide (u ∈ s.units)).rename (s.places home)
  operations := (gather w.operations s.operations).map (Operation.rename (s.places home))

/-- Places in a list that are taken, each once. -/
def Owned (own : List Nat) (next : Nat) : Prop := own.Nodup ∧ ∀ j ∈ own, j < next

/-- A share is a part of the world that is complete in itself. -/
structure Share.Fits (s : Share) (w : World) : Prop where
  units : Owned s.units w.units.length
  transactions : Owned s.transactions w.transactions.length
  operations : Owned s.operations w.operations.length
  lineage : ∀ {u : Nat} {x : UnitOfWork}, u ∈ s.units → w.units[u]? = some x →
    ∀ a ∈ x.lineage, a ∈ s.units
  unit : ∀ {u : Nat} {x : UnitOfWork}, u ∈ s.units → w.units[u]? = some x →
    ∀ n ∈ x.transactions, n ∈ s.transactions
  operation : ∀ {c : Nat} {o : Operation}, c ∈ s.operations → w.operations[c]? = some o →
    o.unit ∈ s.units ∧ ∀ n ∈ o.stage.transactions, n ∈ s.transactions
  strangers : ∀ {u : Nat} {x : UnitOfWork}, u ∉ s.units → w.units[u]? = some x →
    ∀ a ∈ x.lineage, a ∉ s.units

variable {s s' : Share} {home : Nat} {w w' b l : World}

namespace Owned

variable {own : List Nat} {next j k : Nat}

theorem nameIn_idxOf (mem : j ∈ own) : nameIn own next (own.idxOf j) = j :=
  nameIn_of_getElem? (List.getElem?_idxOf mem)

end Owned

namespace Share.Fits

theorem naming_injective (h : s.Fits w) : (s.naming home w).Injective where
  unit := nameIn_injective h.units.1 h.units.2
  transaction := nameIn_injective h.transactions.1 h.transactions.2
  operation := nameIn_injective h.operations.1 h.operations.2
  thread := (Equiv.swap home s.thread).injective

theorem names_iff (u : Nat) :
    (s.naming home w).Names u ↔ u ∈ s.units ∨ w.units.length ≤ u :=
  exists_nameIn_iff

/-- A table of the world against the entries that are gathered from it. -/
theorem table {α : Type} {same : Nat → α → α → Prop} {entries gathered : List α} {own : List Nat}
    (here : ∀ i, Option.Rel (same i) gathered[i]? ((own[i]?).bind fun p => entries[p]?))
    (length : gathered.length = own.length) :
    Table same (nameIn own entries.length) entries gathered entries where
  here := by
    intro i
    cases there : own[i]? with
    | some p =>
        have entry := here i
        rw [there, Option.bind_some] at entry
        rwa [nameIn_of_getElem? there]
    | none =>
        have entry := here i
        rw [there, Option.bind_none] at entry
        have late := List.getElem?_eq_none_iff.mp there
        obtain ⟨d, rfl⟩ : ∃ d, i = own.length + d := ⟨i - own.length, by omega⟩
        have out : entries[entries.length + d]? = none := List.getElem?_eq_none (by omega)
        rw [nameIn_length_add, out]
        exact entry
  room := fun k => by rw [length, nameIn_length_add]
  others := fun _ _ => rfl

/-- The view of a share is a part of the world. -/
theorem mirrors_view (h : s.Fits w) (home : Nat) (contained : w.Contained) :
    World.Mirrors (s.naming home w) w (w.view home s) w where
  injective := h.naming_injective
  strangers := by
    intro j x stranger unit a mem named
    rw [names_iff] at stranger named
    rcases named with own | new
    · exact h.strangers (fun there => stranger (.inl there)) unit a mem own
    · exact Nat.not_lt_of_le new (contained.above unit mem).1
  units := by
    refine table (fun i => ?_) (by simp [World.view, length_gather h.units.2])
    simp only [World.view, List.getElem?_map, getElem?_gather h.units.2]
    cases there : s.units[i]? with
    | none => exact .none
    | some u =>
        have mem := List.mem_of_getElem? there
        have unit := List.getElem?_eq_getElem (h.units.2 u mem)
        simp only [Option.bind_some, unit, Option.map_some]
        refine .some (UnitOfWork.rename_rename _ ?_ ?_ ?_).symm
        · exact fun a above => Owned.nameIn_idxOf (h.lineage mem unit a above)
        · exact fun n refers => Owned.nameIn_idxOf (h.unit mem unit n refers)
        · exact Equiv.swap_apply_self _ _
  transactions := by
    refine table (fun i => ?_)
      (by simp [World.view, length_gather h.transactions.2])
    simp only [World.view, List.getElem?_mapIdx, getElem?_gather h.transactions.2]
    cases there : s.transactions[i]? with
    | none => exact .none
    | some n =>
        have mem := List.mem_of_getElem? there
        simp only [Option.bind_some, List.getElem?_eq_getElem (h.transactions.2 n mem),
          Option.map_some]
        exact .some rfl
  operations := by
    refine table (fun i => ?_)
      (by simp [World.view, length_gather h.operations.2])
    simp only [World.view, List.getElem?_map, getElem?_gather h.operations.2]
    cases there : s.operations[i]? with
    | none => exact .none
    | some c =>
        have mem := List.mem_of_getElem? there
        have running := List.getElem?_eq_getElem (h.operations.2 c mem)
        obtain ⟨seat, refers⟩ := h.operation mem running
        simp only [Option.bind_some, running, Option.map_some]
        refine .some (Operation.rename_rename _ (Owned.nameIn_idxOf seat) ?_ ?_).symm
        · exact fun n mem => Owned.nameIn_idxOf (refers n mem)
        · exact Equiv.swap_apply_self _ _
  kept := by
    intro p own
    simp only [World.view, List.map_map]
    refine List.map_congr_left fun M there => ?_
    cases M with
    | registry live =>
        obtain ⟨m, registry⟩ := List.mem_iff_getElem?.mp there
        have same : live.filter p = live.filter fun u => decide (u ∈ s.units) := by
          refine List.filter_congr fun u mem => ?_
          have lt := contained.kept registry mem
          rw [Bool.eq_iff_iff, own, names_iff]
          simp [Nat.not_le_of_lt lt]
        simp only [Manager.keep, Manager.rename, Function.comp_apply, same, List.map_map]
        congr 1
        refine (List.map_id _).symm.trans (List.map_congr_left fun u mem => ?_)
        exact (Owned.nameIn_idxOf (by simpa using (List.mem_filter.mp mem).2)).symm
    | _ => rfl
  left := fun _ _ => rfl
  now := rfl
  epoch := rfl
  seated := by
    intro o mem
    obtain ⟨o₀, gathered, rfl⟩ := List.mem_map.mp mem
    obtain ⟨c, own, running⟩ := List.mem_filterMap.mp gathered
    have seat := (h.operation own running).1
    simpa [World.view, length_gather h.units.2, Operation.rename, Share.places] using
      List.idxOf_lt_length_of_mem seat

end Share.Fits

/-! ## Parts are determined by their names -/

namespace Naming.Injective

variable {ν : Naming}

/-- What has been renamed can be renamed back. -/
theorem exists_inverse (h : ν.Injective) : ∃ μ : Naming, (∀ u, μ.unit (ν.unit u) = u) ∧
    (∀ n, μ.transaction (ν.transaction n) = n) ∧ ∀ t, μ.thread (ν.thread t) = t :=
  ⟨⟨ν.unit.invFun, ν.transaction.invFun, ν.operation.invFun, ν.thread.invFun⟩,
    Function.leftInverse_invFun h.unit, Function.leftInverse_invFun h.transaction,
    Function.leftInverse_invFun h.thread⟩

theorem rename_unit (h : ν.Injective) : Function.Injective (UnitOfWork.rename ν) := by
  obtain ⟨μ, units, transactions, threads⟩ := h.exists_inverse
  exact Function.LeftInverse.injective (g := UnitOfWork.rename μ) fun x =>
    x.rename_rename (fun a _ => units a) (fun n _ => transactions n) threads

theorem rename_operation (h : ν.Injective) : Function.Injective (Operation.rename ν) := by
  obtain ⟨μ, units, transactions, threads⟩ := h.exists_inverse
  exact Function.LeftInverse.injective (g := Operation.rename μ) fun o =>
    o.rename_rename (units o.unit) (fun n _ => transactions n) threads

theorem rename_manager (h : ν.Injective) : Function.Injective (Manager.rename ν) := by
  obtain ⟨μ, units, -⟩ := h.exists_inverse
  refine Function.LeftInverse.injective (g := Manager.rename μ) fun M => ?_
  cases M with
  | registry live => simp [Manager.rename, Function.comp_def, units]
  | _ => rfl

end Naming.Injective

/-- There is one part of a world for given names. -/
theorem World.Mirrors.unique {ν : Naming} {b' l' : World} (h : World.Mirrors ν b l w)
    (h' : World.Mirrors ν b' l' w) : l = l' := by
  have units : l.units = l'.units := by
    refine List.ext_getElem? fun u => ?_
    exact Option.map_injective h.injective.rename_unit ((h.unit u).symm.trans (h'.unit u))
  have transactions : l.transactions = l'.transactions :=
    List.ext_getElem? fun n => (h.transaction n).trans (h'.transaction n).symm
  have operations : l.operations = l'.operations := by
    refine List.ext_getElem? fun c => ?_
    exact Option.map_injective h.injective.rename_operation
      ((h.operation c).symm.trans (h'.operation c))
  have managers : l.managers = l'.managers := by
    classical
    have own : ∀ u, decide (ν.Names u) = true ↔ ν.Names u := by simp
    exact List.map_injective_iff.mpr h.injective.rename_manager
      ((h.kept _ own).symm.trans (h'.kept _ own))
  have now : l.now = l'.now := h.now.trans h'.now.symm
  have epoch : l.epoch = l'.epoch := h.epoch.trans h'.epoch.symm
  cases l
  cases l'
  congr

/-! ## Shares grow -/

/-- Nothing is removed from one world to the other. -/
structure World.Grows (w w' : World) : Prop where
  units : w.units.length ≤ w'.units.length
  transactions : w.transactions.length ≤ w'.transactions.length
  operations : w.operations.length ≤ w'.operations.length

theorem World.Grows.refl (w : World) : w.Grows w :=
  ⟨Nat.le_refl _, Nat.le_refl _, Nat.le_refl _⟩

theorem World.Grows.trans {w'' : World} (h : w.Grows w') (h' : w'.Grows w'') : w.Grows w'' :=
  ⟨h.units.trans h'.units, h.transactions.trans h'.transactions, h.operations.trans h'.operations⟩

theorem World.grows_perform (order : w.Orderly) (a : World.Action) : w.Grows (w.perform a) where
  units := by
    refine Nat.le_of_not_lt fun fewer => ?_
    obtain ⟨x, after, -⟩ := (World.endures_perform order a).unit (List.getElem?_eq_getElem fewer)
    exact Nat.lt_irrefl _ (List.getElem?_eq_some_iff.mp after).1
  transactions :=
    World.perform_induction (P := fun w' => w.transactions.length ≤ w'.transactions.length)
      (Nat.le_refl _) order.seated (fun _ _ _ step => step.length_transactions_le)
      fun le step _ => le.trans step.length_transactions_le
  operations := (World.endures_perform order a).length_le

theorem Owned.grow {own : List Nat} {next next' : Nat} (h : Owned own next) (le : next ≤ next') :
    Owned (own ++ List.range' next (next' - next)) next' := by
  refine ⟨List.nodup_append.mpr ⟨h.1, List.nodup_range', ?_⟩, ?_⟩
  · rintro j mem k fresh rfl
    have lt := h.2 j mem
    have ge := (List.mem_range'_1.mp fresh).1
    omega
  · intro j mem
    rcases List.mem_append.mp mem with old | fresh
    · exact (h.2 j old).trans_le le
    · have lt := (List.mem_range'_1.mp fresh).2
      omega

/-- What is owned after growing was owned before, or is new. -/
theorem mem_grow {own : List Nat} {next next' j : Nat} (lt : j < next') :
    j ∈ own ++ List.range' next (next' - next) ↔ j ∈ own ∨ next ≤ j := by
  rw [List.mem_append, List.mem_range'_1]
  constructor
  · rintro (old | ⟨ge, -⟩)
    · exact .inl old
    · exact .inr ge
  · rintro (old | ge)
    · exact .inl old
    · exact .inr ⟨ge, by omega⟩

/-- More is owned than before, and of what there was before the same. -/
structure Keeps (own own' : List Nat) (next : Nat) : Prop where
  start : own <+: own'
  old : ∀ j ∈ own', j < next → j ∈ own

namespace Keeps

variable {own own' own'' : List Nat} {next next' : Nat}

theorem refl (own : List Nat) (next : Nat) : Keeps own own next :=
  ⟨List.prefix_rfl, fun _ mem _ => mem⟩

theorem getElem? (h : Keeps own own' next) {i j : Nat} (there : own[i]? = some j) :
    own'[i]? = some j := by
  obtain ⟨more, rfl⟩ := h.start
  rw [List.getElem?_append_left (List.getElem?_eq_some_iff.mp there).1, there]

theorem trans (h : Keeps own own' next) (h' : Keeps own' own'' next') (le : next ≤ next') :
    Keeps own own'' next :=
  ⟨h.start.trans h'.start, fun j mem lt => h.old j (h'.old j mem (lt.trans_le le)) lt⟩

theorem grow (own : List Nat) (next count : Nat) :
    Keeps own (own ++ List.range' next count) next := by
  refine ⟨List.prefix_append .., fun j mem lt => ?_⟩
  rcases List.mem_append.mp mem with old | fresh
  · exact old
  · exact absurd (List.mem_range'_1.mp fresh).1 (Nat.not_le_of_lt lt)

end Keeps

theorem UnitOfWork.transactions_rename (ν : Naming) (x : UnitOfWork) :
    (x.rename ν).transactions = x.transactions.map ν.transaction := by
  obtain ⟨-, -, -, -, -, -, -, -, slot, -, -, current⟩ := x
  cases slot <;> cases current <;> rfl

theorem Stage.transactions_rename (ν : Naming) (s : Stage) :
    (s.rename ν).transactions = s.transactions.map ν.transaction := by
  cases s <;> rfl

namespace Share

/-- Growing changes no names. -/
theorem naming_grow (grows : w.Grows w') : (s.grow w w').naming home w' = s.naming home w := by
  have same (own : List Nat) {next next' : Nat} (le : next ≤ next') :
      nameIn (own ++ List.range' next (next' - next)) next' = nameIn own next := by
    have eq := nameIn_append own next (next' - next)
    rwa [Nat.add_sub_cancel' le] at eq
  simp only [naming, grow, same _ grows.units, same _ grows.transactions, same _ grows.operations]

/-- Of the units that there are after growing, the names are those of the share. -/
theorem mem_units_grow (home : Nat) {u : Nat} (lt : u < w'.units.length) :
    u ∈ (s.grow w w').units ↔ (s.naming home w).Names u :=
  (mem_grow lt).trans exists_nameIn_iff.symm

namespace Fits

/-- A share that has grown by all that is new in its part is complete in itself again. -/
theorem grow (h : s.Fits w) (mirrors : World.Mirrors (s.naming home w) w l w')
    (grows : w.Grows w') (contained : w'.Contained) : (s.grow w w').Fits w' where
  units := h.units.grow grows.units
  transactions := h.transactions.grow grows.transactions
  operations := h.operations.grow grows.operations
  lineage := by
    intro u x mem unit a above
    have lt := (List.getElem?_eq_some_iff.mp unit).1
    obtain ⟨i, rfl⟩ := (mem_units_grow home lt).mp mem
    obtain ⟨x₀, -, rfl⟩ := mirrors.units.exists_part unit
    obtain ⟨a₀, -, rfl⟩ := List.mem_map.mp above
    exact (mem_units_grow home (contained.above unit above).1).mpr ⟨a₀, rfl⟩
  unit := by
    intro u x mem unit n refers
    have lt := (List.getElem?_eq_some_iff.mp unit).1
    obtain ⟨i, rfl⟩ := (mem_units_grow home lt).mp mem
    obtain ⟨x₀, -, rfl⟩ := mirrors.units.exists_part unit
    have within := contained.unit unit refers
    rw [UnitOfWork.transactions_rename] at refers
    obtain ⟨n₀, -, rfl⟩ := List.mem_map.mp refers
    exact (mem_grow within).mpr (exists_nameIn_iff.mp ⟨n₀, rfl⟩)
  operation := by
    intro c o mem running
    have lt := (List.getElem?_eq_some_iff.mp running).1
    obtain ⟨i, rfl⟩ : ∃ i, (s.naming home w).operation i = c :=
      exists_nameIn_iff.mpr ((mem_grow lt).mp mem)
    obtain ⟨o₀, there, rfl⟩ := mirrors.operations.exists_part running
    constructor
    · have seat := mirrors.units.place_lt_iff.mpr
        (mirrors.seated o₀ (List.mem_of_getElem? there))
      exact (mem_units_grow home seat).mpr ⟨o₀.unit, rfl⟩
    · intro n refers
      have within := contained.stage running refers
      change n ∈ (o₀.stage.rename _).transactions at refers
      rw [Stage.transactions_rename] at refers
      obtain ⟨n₀, -, rfl⟩ := List.mem_map.mp refers
      exact (mem_grow within).mpr (exists_nameIn_iff.mp ⟨n₀, rfl⟩)
  strangers := by
    intro u x other unit a above mem
    have lt := (List.getElem?_eq_some_iff.mp unit).1
    have stranger : ¬ (s.naming home w).Names u := fun named =>
      other ((mem_units_grow home lt).mpr named)
    have named := (mem_units_grow home (contained.above unit above).1).mp mem
    rw [mirrors.units.others u fun i eq => stranger ⟨i, eq⟩] at unit
    exact mirrors.strangers stranger unit a above named

/-- What is done in the part is what the view of the share becomes. -/
theorem view_grow (h : s.Fits w) (mirrors : World.Mirrors (s.naming home w) w l w')
    (grows : w.Grows w') (contained : w'.Contained) : w'.view home (s.grow w w') = l := by
  have after := (h.grow mirrors grows contained).mirrors_view home contained
  rw [naming_grow grows] at after
  exact after.unique mirrors

end Fits

/-! ## Other shares -/

/-- Two shares have nothing in common. -/
structure Apart (s s' : Share) : Prop where
  units : s.units.Disjoint s'.units
  transactions : s.transactions.Disjoint s'.transactions
  operations : s.operations.Disjoint s'.operations

theorem Apart.symm (h : s.Apart s') : s'.Apart s :=
  ⟨h.units.symm, h.transactions.symm, h.operations.symm⟩

/-- Nothing but a share has changed from one world to the other. -/
structure Alone (s : Share) (w w' : World) : Prop where
  units : ∀ u, u ∉ (s.grow w w').units → w'.units[u]? = w.units[u]?
  transactions : ∀ n, n ∉ (s.grow w w').transactions → w'.transactions[n]? = w.transactions[n]?
  operations : ∀ c, c ∉ (s.grow w w').operations → w'.operations[c]? = w.operations[c]?
  managers : ∀ p : Nat → Bool,
    (∀ u, p u = true → u < w'.units.length ∧ u ∉ (s.grow w w').units) →
      w'.managers.map (Manager.keep p) = w.managers.map (Manager.keep p)

/-- An entry that is neither owned nor new is the same, and so is one that there is not. -/
theorem others_of_table {α : Type} {same : Nat → α → α → Prop} {own : List Nat}
    {entries part entries' : List α}
    (table : Table same (nameIn own entries.length) entries part entries')
    (le : entries.length ≤ entries'.length) {j : Nat}
    (other : j ∉ own ++ List.range' entries.length (entries'.length - entries.length)) :
    entries'[j]? = entries[j]? := by
  by_cases lt : j < entries'.length
  · exact table.others j fun i eq => other ((mem_grow lt).mpr (exists_nameIn_iff.mp ⟨i, eq⟩))
  · rw [List.getElem?_eq_none (by omega), List.getElem?_eq_none (by omega)]

theorem alone_of_mirrors (mirrors : World.Mirrors (s.naming home w) w l w') (grows : w.Grows w') :
    s.Alone w w' where
  units := fun _ => others_of_table mirrors.units grows.units
  transactions := fun _ => others_of_table mirrors.transactions grows.transactions
  operations := fun _ => others_of_table mirrors.operations grows.operations
  managers := by
    intro p away
    refine mirrors.left p fun u kept named => ?_
    obtain ⟨lt, other⟩ := away u kept
    exact other ((mem_units_grow home lt).mpr named)

/-- A share that has nothing in common with what has changed looks as it did. -/
theorem Alone.view_eq (h : s.Alone w w') (grows : w.Grows w') (apart : (s.grow w w').Apart s')
    (fits : s'.Fits w) : w'.view home s' = w.view home s' := by
  have managers := h.managers (fun u => decide (u ∈ s'.units)) fun u kept => by
    have mem : u ∈ s'.units := by simpa using kept
    exact ⟨(fits.units.2 u mem).trans_le grows.units, fun own => apart.units own mem⟩
  have managers' := congrArg (List.map (Manager.rename (s'.places home))) managers
  rw [List.map_map, List.map_map] at managers'
  have units : gather w'.units s'.units = gather w.units s'.units :=
    gather_congr fun u mem => h.units u fun own => apart.units own mem
  have transactions : gather w'.transactions s'.transactions =
      gather w.transactions s'.transactions :=
    gather_congr fun n mem => h.transactions n fun own => apart.transactions own mem
  have operations : gather w'.operations s'.operations = gather w.operations s'.operations :=
    gather_congr fun c mem => h.operations c fun own => apart.operations own mem
  simp only [World.view, units, transactions, operations]
  congr 1

/-- What a share has in common with another does not become more as it grows. -/
theorem Apart.grow (apart : s.Apart s') (fits : s'.Fits w) : (s.grow w w').Apart s' := by
  have disjoint {own own' : List Nat} {next k : Nat} (disjoint : own.Disjoint own')
      (owned : Owned own' next) : (own ++ List.range' next k).Disjoint own' := by
    intro j mem mem'
    rcases List.mem_append.mp mem with old | fresh
    · exact disjoint old mem'
    · have lt := owned.2 j mem'
      have ge := (List.mem_range'_1.mp fresh).1
      omega
  exact ⟨disjoint apart.units fits.units, disjoint apart.transactions fits.transactions,
    disjoint apart.operations fits.operations⟩

/-- A share that has nothing in common with what has changed is complete in itself as before. -/
theorem Fits.beside (fits : s'.Fits w) (h : s.Alone w w') (grows : w.Grows w')
    (grown : (s.grow w w').Fits w') (apart : (s.grow w w').Apart s') : s'.Fits w' where
  units := ⟨fits.units.1, fun u mem => (fits.units.2 u mem).trans_le grows.units⟩
  transactions :=
    ⟨fits.transactions.1, fun n mem => (fits.transactions.2 n mem).trans_le grows.transactions⟩
  operations :=
    ⟨fits.operations.1, fun c mem => (fits.operations.2 c mem).trans_le grows.operations⟩
  lineage := by
    intro u x mem unit
    rw [h.units u fun own => apart.units own mem] at unit
    exact fits.lineage mem unit
  unit := by
    intro u x mem unit
    rw [h.units u fun own => apart.units own mem] at unit
    exact fits.unit mem unit
  operation := by
    intro c o mem running
    rw [h.operations c fun own => apart.operations own mem] at running
    exact fits.operation mem running
  strangers := by
    intro u x other unit a above mem
    by_cases own : u ∈ (s.grow w w').units
    · exact apart.units (grown.lineage own unit a above) mem
    · rw [h.units u own] at unit
      exact fits.strangers other unit a above mem

end Share

end NestedWork
