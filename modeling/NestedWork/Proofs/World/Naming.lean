import Mathlib.Logic.Function.Basic
import NestedWork.Proofs.Transaction.Timeless
import NestedWork.World.Run

/-!
# The world under other names

Units, transactions, operations and threads are told apart by their numbers and by nothing else. A
small world may so be a part of a larger one, in which the same things have other numbers.

## Implementation notes

A naming says which number everything in the part has in the whole, also what is not there yet: the
next thing that comes about in the part has the next number that is free in the whole. What the
whole has beyond the part is compared with a third world, in which the part was last touched.

The part knows no time, so that it can be compared with itself at another time.
-/

namespace NestedWork

/-! ## Names -/

/-- The numbers that the things of a part of the world have in the whole. -/
structure Naming where
  unit : Nat → Nat
  transaction : Nat → Nat
  operation : Nat → Nat
  thread : Nat → Nat

/-- No two things have one number. -/
structure Naming.Injective (ν : Naming) : Prop where
  unit : ν.unit.Injective
  transaction : ν.transaction.Injective
  operation : ν.operation.Injective
  thread : ν.thread.Injective

/-- The number of a unit that is named. -/
def Naming.Names (ν : Naming) (u : Nat) : Prop := ∃ i, ν.unit i = u

def Slot.rename (ν : Naming) : Slot → Slot
  | live n => live (ν.transaction n)
  | s => s

def UnitOfWork.rename (ν : Naming) (x : UnitOfWork) : UnitOfWork :=
  { x with
    lineage := x.lineage.map ν.unit
    thread := ν.thread x.thread
    slot := x.slot.rename ν
    current := x.current.map ν.transaction }

def Scope.rename (ν : Naming) (s : Scope) : Scope :=
  { s with transaction := ν.transaction s.transaction, thread := ν.thread s.thread }

def Inner.rename (ν : Naming) (i : Inner) : Inner :=
  { i with transaction := ν.transaction i.transaction }

def Stage.rename (ν : Naming) : Stage → Stage
  | work scope => work (scope.rename ν)
  | leaving scope e i => leaving (scope.rename ν) e (i.rename ν)
  | discarding scope e i => discarding (scope.rename ν) e (i.rename ν)
  | completing scope i => completing (scope.rename ν) (i.rename ν)
  | yielding r i => yielding r (i.rename ν)
  | surrender i => surrender (i.rename ν)
  | s => s

def Operation.rename (ν : Naming) (o : Operation) : Operation :=
  ⟨ν.unit o.unit, ν.thread o.thread, o.stage.rename ν⟩

def Activity.rename (ν : Naming) : Activity → Activity
  | operation c => operation (ν.operation c)
  | call i => call (i.rename ν)

def Opening.rename (ν : Naming) (o : Opening) : Opening :=
  { o with parent := o.parent.map ν.unit, thread := ν.thread o.thread }

/-- The units that a registry keeps, under other names. -/
def Manager.rename (ν : Naming) : Manager → Manager
  | registry live => registry (live.map ν.unit)
  | m => m

/-- A manager that keeps some units only. -/
def Manager.keep (p : Nat → Bool) : Manager → Manager
  | registry live => registry (live.filter p)
  | m => m

namespace World

def Action.rename (ν : Naming) : Action → Action
  | openUnit o => openUnit (o.rename ν)
  | commit u thread => commit (ν.unit u) (ν.thread thread)
  | release u thread dropping => release (ν.unit u) (ν.thread thread) dropping
  | rollback u thread => rollback (ν.unit u) (ν.thread thread)
  | openTransaction localId options => openTransaction localId options
  | enlist n participant => enlist (ν.transaction n) participant
  | issue n mode => issue (ν.transaction n) mode
  | call n purpose => call (ν.transaction n) purpose
  | answer a reply => answer (a.rename ν) reply
  | turn a => turn (a.rename ν)
  | rouse a => rouse (a.rename ν)
  | tick nanos => tick nanos

end World

/-! ## Tables -/

/-- A list of a part against that of the whole, in which the entries of the part stand at the places
that they are given. -/
structure Table {α : Type} (same : Nat → α → α → Prop) (place : Nat → Nat)
    (base part whole : List α) : Prop where
  here : ∀ i, Option.Rel (same i) part[i]? whole[place i]?
  room : ∀ k, place (part.length + k) = whole.length + k
  others : ∀ j, (∀ i, place i ≠ j) → whole[j]? = base[j]?

namespace Table

variable {α : Type} {same : Nat → α → α → Prop} {place : Nat → Nat} {base part whole : List α}

theorem place_length (h : Table same place base part whole) : place part.length = whole.length :=
  h.room 0

theorem exists_whole (h : Table same place base part whole) {i : Nat} {x : α}
    (there : part[i]? = some x) : ∃ y, whole[place i]? = some y ∧ same i x y := by
  have here := h.here i
  rw [there] at here
  generalize whole[place i]? = found at here
  cases here with
  | some alike => exact ⟨_, rfl, alike⟩

theorem exists_part (h : Table same place base part whole) {i : Nat} {y : α}
    (there : whole[place i]? = some y) : ∃ x, part[i]? = some x ∧ same i x y := by
  have here := h.here i
  rw [there] at here
  generalize part[i]? = found at here
  cases here with
  | some alike => exact ⟨_, rfl, alike⟩

theorem eq_none (h : Table same place base part whole) {i : Nat} (absent : part[i]? = none) :
    whole[place i]? = none := by
  have here := h.here i
  rw [absent] at here
  generalize whole[place i]? = found at here
  cases here
  rfl

/-- A place in the whole is taken if its number in the part is. -/
theorem place_lt_iff (h : Table same place base part whole) {i : Nat} :
    place i < whole.length ↔ i < part.length := by
  constructor
  · intro lt
    obtain ⟨x, there, -⟩ := h.exists_part (List.getElem?_eq_getElem lt)
    exact (List.getElem?_eq_some_iff.mp there).1
  · intro lt
    obtain ⟨y, there, -⟩ := h.exists_whole (List.getElem?_eq_getElem lt)
    exact (List.getElem?_eq_some_iff.mp there).1

/-- One entry is changed on both sides. -/
theorem modify (h : Table same place base part whole) (injective : place.Injective) (i : Nat)
    {f g : α → α} (alike : ∀ x y, part[i]? = some x → same i x y → same i (f x) (g y)) :
    Table same place base (part.modify i f) (whole.modify (place i) g) where
  here := by
    intro j
    have here := h.here j
    simp only [List.getElem?_modify]
    by_cases hit : i = j
    · subst hit
      cases there : part[i]? with
      | none =>
          rw [h.eq_none there]
          exact .none
      | some x =>
          obtain ⟨y, there', known⟩ := h.exists_whole there
          rw [there']
          simpa using Option.Rel.some (alike x y there known)
    · have away : place i ≠ place j := fun eq => hit (injective eq)
      simpa [hit, away] using here
  room := by simpa using h.room
  others := by
    intro j away
    rw [List.getElem?_modify, ← h.others j away]
    simp [away i]

/-- One entry is added on both sides. -/
theorem append (h : Table same place base part whole) (injective : place.Injective) {x y : α}
    (alike : same part.length x y) : Table same place base (part ++ [x]) (whole ++ [y]) where
  here := by
    intro j
    by_cases last : j = part.length
    · subst last
      simpa [h.place_length] using Option.Rel.some alike
    · have away : place j ≠ whole.length := fun eq =>
        last (injective (eq.trans h.place_length.symm))
      have here := h.here j
      rw [List.getElem?_append, List.getElem?_append]
      by_cases early : j < part.length
      · rw [if_pos early, if_pos (h.place_lt_iff.mpr early)]
        exact here
      · have late : ¬ place j < whole.length := fun lt => early (h.place_lt_iff.mp lt)
        rw [if_neg early, if_neg late, List.getElem?_eq_none (by simp; omega),
          List.getElem?_eq_none (by simp; omega)]
        exact .none
  room := by
    intro k
    rw [List.length_append, List.length_append, Nat.add_assoc, h.room, Nat.add_assoc]
    rfl
  others := by
    intro j away
    have ne : j ≠ whole.length := fun eq => away part.length (h.place_length.trans eq.symm)
    rw [← h.others j away, List.getElem?_append]
    split
    next => rfl
    next early =>
      rw [List.getElem?_eq_none (by simp; omega), List.getElem?_eq_none (by omega)]

end Table

/-! ## Entries at given places -/

/-- The entries of a list at some places, in the order of these. -/
def gather {α : Type} (entries : List α) (places : List Nat) : List α :=
  places.filterMap fun p => entries[p]?

section Gather

variable {α : Type} {entries : List α} {places : List Nat}

theorem getElem?_gather (within : ∀ p ∈ places, p < entries.length) (i : Nat) :
    (gather entries places)[i]? = (places[i]?).bind fun p => entries[p]? := by
  induction places generalizing i with
  | nil => rfl
  | cons p rest ih =>
      have there := List.getElem?_eq_getElem (within p List.mem_cons_self)
      have rest' := ih fun q mem => within q (List.mem_cons_of_mem p mem)
      rw [gather, List.filterMap_cons_some there]
      cases i with
      | zero => exact there.symm
      | succ i => exact rest' i

theorem length_gather (within : ∀ p ∈ places, p < entries.length) :
    (gather entries places).length = places.length := by
  induction places with
  | nil => rfl
  | cons p rest ih =>
      have there := List.getElem?_eq_getElem (within p List.mem_cons_self)
      have rest' := ih fun q mem => within q (List.mem_cons_of_mem p mem)
      rw [gather, List.filterMap_cons_some there]
      exact congrArg (· + 1) rest'

/-- Only the entries at the places matter. -/
theorem gather_congr {entries' : List α} (same : ∀ p ∈ places, entries'[p]? = entries[p]?) :
    gather entries' places = gather entries places :=
  List.filterMap_congr same

end Gather

/-- The number of an entry: that of one that is owned, or one that is free from the next on. -/
def nameIn (own : List Nat) (next i : Nat) : Nat := own.getD i (next + (i - own.length))

section NameIn

variable {own : List Nat} {next i j : Nat}

theorem nameIn_of_getElem? (there : own[i]? = some j) : nameIn own next i = j := by
  simp [nameIn, List.getD_eq_getElem?_getD, there]

theorem nameIn_length_add (own : List Nat) (next k : Nat) :
    nameIn own next (own.length + k) = next + k := by
  simp [nameIn, List.getD_eq_getElem?_getD]

/-- What is named is owned or free. -/
theorem exists_nameIn_iff : (∃ i, nameIn own next i = j) ↔ j ∈ own ∨ next ≤ j := by
  constructor
  · rintro ⟨i, rfl⟩
    cases there : own[i]? with
    | some j =>
        rw [nameIn_of_getElem? there]
        exact .inl (List.mem_of_getElem? there)
    | none =>
        right
        simp [nameIn, List.getD_eq_getElem?_getD, there]
  · rintro (mem | free)
    · obtain ⟨i, there⟩ := List.mem_iff_getElem?.mp mem
      exact ⟨i, nameIn_of_getElem? there⟩
    · refine ⟨own.length + (j - next), ?_⟩
      rw [nameIn_length_add]
      omega

theorem nameIn_injective (nodup : own.Nodup) (lt : ∀ j ∈ own, j < next) :
    (nameIn own next).Injective := by
  have cases (i : Nat) : (∃ j, own[i]? = some j ∧ nameIn own next i = j ∧ j < next) ∨
      ∃ k, i = own.length + k ∧ nameIn own next i = next + k := by
    cases there : own[i]? with
    | some j => exact .inl ⟨j, rfl, nameIn_of_getElem? there, lt j (List.mem_of_getElem? there)⟩
    | none =>
        have ge := List.getElem?_eq_none_iff.mp there
        refine .inr ⟨i - own.length, by omega, ?_⟩
        rw [← nameIn_length_add]
        congr
        omega
  intro i i' eq
  rcases cases i with ⟨j, there, named, small⟩ | ⟨k, rfl, named⟩
  · rcases cases i' with ⟨j', there', named', small'⟩ | ⟨k', rfl, named'⟩
    · rw [named, named'] at eq
      subst eq
      have early := (List.getElem?_eq_some_iff.mp there).1
      exact (List.getElem?_inj early nodup).mp (there.trans there'.symm)
    · omega
  · rcases cases i' with ⟨j', there', named', small'⟩ | ⟨k', rfl, named'⟩
    · omega
    · omega

/-- Names do not change as what is free comes to be owned. -/
theorem nameIn_append (own : List Nat) (next k : Nat) :
    nameIn (own ++ List.range' next k) (next + k) = nameIn own next := by
  funext i
  by_cases early : i < own.length
  · have there := List.getElem?_eq_getElem early
    rw [nameIn_of_getElem? there]
    exact nameIn_of_getElem? (by rw [List.getElem?_append_left early, there])
  · obtain ⟨d, rfl⟩ : ∃ d, i = own.length + d := ⟨i - own.length, by omega⟩
    rw [nameIn_length_add]
    by_cases fresh : d < k
    · apply nameIn_of_getElem?
      rw [List.getElem?_append_right (by omega), Nat.add_sub_cancel_left,
        List.getElem?_range' fresh, Nat.one_mul]
    · obtain ⟨e, rfl⟩ : ∃ e, d = k + e := ⟨d - k, by omega⟩
      have length : own.length + (k + e) = (own ++ List.range' next k).length + e := by
        simp [Nat.add_assoc]
      rw [length, nameIn_length_add, Nat.add_assoc]

end NameIn

end NestedWork
