import NestedWork.Proofs.World.Division

/-!
# Trees that are committed side by side

Some units of different trees are to be committed. What the capabilities and the participants of a
tree do next depends on the state of that tree only, so the commit of each unit takes the course
that it would take if the tree were alone in the world.

## Implementation notes

How far the commits have come is a number of steps for each. Whoever begins them and goes on with
them, in whatever order, the view of a tree after that many steps is the state that the tree has
reached by itself.
-/

namespace NestedWork

open World (NoneKept)

namespace World

/-- The result that a commit has returned. -/
def returned? (w : World) (c : Nat) : Option (Except Violation (Response Unit)) :=
  match (w.operations[c]?).map Operation.stage with
  | some (.done (.commit r)) => some r
  | _ => none

/-- What belongs to the tree of a root: its units, and the transactions that these refer to. -/
def treeShare (w : World) (r home : Nat) : Share where
  units := (List.range w.units.length).filter fun u => w.rootOf u == r
  transactions := (List.range w.transactions.length).filter fun n =>
    (List.range w.units.length).any fun u =>
      w.rootOf u == r && (w.units[u]?).any fun x => x.transactions.contains n
  operations := []
  thread := home

end World

/-- Units of different trees that are to be committed after a run, and what is done next on each of
these trees, given the state of the tree. -/
structure Task where
  managers : List Manager
  past : List World.Action
  units : List Nat
  /-- A thread that no unit was opened on. -/
  home : Nat
  conduct : Nat → World → World.Action

namespace Task

variable (t : Task)

/-- The world in which the units are to be committed. -/
def world : World := (World.initial t.managers).run t.past

/-- The tree of the unit at a position. -/
def share (p : Nat) : Share :=
  match t.units[p]? with
  | some u => t.world.treeShare (t.world.rootOf u) t.home
  | none => ⟨[], [], [], t.home⟩

/-- The world, divided into the trees. -/
def start : Division := ⟨t.world, t.share⟩

/-- The tree at a position by itself: the commit of the unit is begun, and so many steps are done
until it returns. -/
def solo (p : Nat) : Nat → World
  | 0 =>
    match t.units[p]? with
    | some u =>
      (t.start.view t.home p).perform (.commit ((t.share p).units.idxOf u) t.home)
    | none => t.start.view t.home p
  | n + 1 =>
    let l := solo p n
    if (l.returned? 0).isSome then l else l.perform (t.conduct p l)

/-- The units are of different trees, which were opened on other threads than they are going to be
committed on. What is done on a tree by itself is done on that tree only, and no call on a
transaction of it waits meanwhile: how long such a call waits is a matter of time. -/
structure Fair (threads : List Nat) : Prop where
  empty : NoneKept t.managers
  known : ∀ u ∈ t.units, u < t.world.units.length
  apart : (t.units.map t.world.rootOf).Nodup
  away : ∀ x ∈ t.world.units, x.thread ≠ t.home ∧ x.thread ∉ threads
  confined : ∀ p n, p < t.units.length → (t.solo p n).returned? 0 = none →
    (t.conduct p (t.solo p n)).isLocal (t.solo p n) = true
  awake : ∀ p n, p < t.units.length → (t.solo p n).isAwake = true

end Task

/-! ## Trees -/

section Tree

variable {w : World} {r r' home u n : Nat} {x : UnitOfWork}

theorem World.mem_treeShare_units :
    u ∈ (w.treeShare r home).units ↔ u < w.units.length ∧ w.rootOf u = r := by
  simp [treeShare]

theorem World.mem_treeShare_transactions : n ∈ (w.treeShare r home).transactions ↔
    n < w.transactions.length ∧
      ∃ u x, w.units[u]? = some x ∧ w.rootOf u = r ∧ n ∈ x.transactions := by
  simp only [treeShare, List.mem_filter, List.mem_range, List.any_eq_true, Bool.and_eq_true,
    beq_iff_eq, Option.any_eq_true, List.contains_iff_mem]
  refine and_congr_right fun _ => exists_congr fun u => ?_
  constructor
  · rintro ⟨-, root, x, unit, mem⟩
    exact ⟨x, unit, root, mem⟩
  · rintro ⟨x, unit, root, mem⟩
    exact ⟨(List.getElem?_eq_some_iff.mp unit).1, root, x, unit, mem⟩

/-- A tree is complete in itself. -/
theorem World.Contained.fits (h : w.Contained) (r home : Nat) : (w.treeShare r home).Fits w where
  units := ⟨List.nodup_range.filter _, fun u mem => (mem_treeShare_units.mp mem).1⟩
  transactions := ⟨List.nodup_range.filter _, fun n mem => (mem_treeShare_transactions.mp mem).1⟩
  operations := ⟨List.nodup_nil, by simp [treeShare]⟩
  lineage := by
    intro u x mem unit a above
    obtain ⟨lt, root⟩ := h.above unit above
    rw [mem_treeShare_units] at mem ⊢
    exact ⟨lt, root.trans mem.2⟩
  unit := by
    intro u x mem unit n refers
    rw [mem_treeShare_units] at mem
    exact mem_treeShare_transactions.mpr ⟨h.unit unit refers, u, x, unit, mem.2, refers⟩
  operation := by
    intro c o mem
    cases mem
  strangers := by
    intro u x other unit a above mem
    rw [mem_treeShare_units] at other mem
    have lt := (List.getElem?_eq_some_iff.mp unit).1
    exact other ⟨lt, (h.above unit above).2.symm.trans mem.2⟩

/-- Different trees have nothing in common. -/
theorem World.Contained.apart (h : w.Contained) (home : Nat) (ne : r ≠ r') :
    (w.treeShare r home).Apart (w.treeShare r' home) where
  units := by
    intro u mem mem'
    rw [mem_treeShare_units] at mem mem'
    exact ne (mem.2.symm.trans mem'.2)
  transactions := by
    intro n mem mem'
    obtain ⟨-, u, x, unit, root, refers⟩ := mem_treeShare_transactions.mp mem
    obtain ⟨-, v, y, unit', root', refers'⟩ := mem_treeShare_transactions.mp mem'
    exact ne (root.symm.trans ((h.tree unit unit' refers refers').trans root'))
  operations := by simp [treeShare]

end Tree

/-! ## Results -/

section Returned

variable {ν : Naming} {b l w : World}

/-- A commit has returned the same result in a part of the world as in the whole. -/
theorem World.Mirrors.returned? (h : World.Mirrors ν b l w) (c : Nat) :
    w.returned? (ν.operation c) = l.returned? c := by
  simp only [World.returned?, h.operation]
  cases l.operations[c]? with
  | none => rfl
  | some o =>
      obtain ⟨u, thread, s⟩ := o
      cases s <;> rfl

end Returned

/-! ## Courses -/

namespace Task

variable {t : Task} {threads : List Nat} {progress : Nat → Option Nat} {d d' : Division}
  {p u n c thread : Nat}

/-- The commits of a task have come a number of steps each, or have not been begun. -/
structure Standing (t : Task) (progress : Nat → Option Nat) (d : Division) : Prop where
  proper : d.Proper t.managers
  waiting : ∀ {p : Nat}, progress p = none → d.shares p = t.share p ∧
    d.view t.home p = t.start.view t.home p
  going : ∀ {p n : Nat}, progress p = some n → d.view t.home p = t.solo p n
  growth : t.start.Growth d
  spares : d.Spares t.world

namespace Fair

variable (fair : t.Fair threads)

include fair

theorem contained : t.world.Contained := World.contained_run fair.empty t.past

/-- At first the trees stand as they are. -/
theorem standing : t.Standing (fun _ => none) t.start where
  proper := by
    refine ⟨⟨t.past, rfl⟩, fun p => ?_, fun {p q} ne => ?_⟩
    · simp only [start, share]
      split
      · exact fair.contained.fits _ _
      · constructor <;> simp [Owned]
    · simp only [start, share]
      split
      next u there =>
        split
        next v there' =>
          refine fair.contained.apart _ fun same => ne ?_
          have early : p < (t.units.map t.world.rootOf).length := by
            simpa using (List.getElem?_eq_some_iff.mp there).1
          refine (List.getElem?_inj early fair.apart).mp ?_
          simp [there, there', same]
        next => constructor <;> simp
      next => constructor <;> simp
  waiting := fun _ => ⟨rfl, rfl⟩
  going := fun {_ _} here => by cases here
  growth := .refl _
  spares := ⟨fun _ _ => rfl, fun _ _ => rfl, fun _ _ => rfl⟩

theorem mem_share (there : t.units[p]? = some u) : u ∈ (t.share p).units := by
  simp only [share, there]
  exact World.mem_treeShare_units.mpr ⟨fair.known u (List.mem_of_getElem? there), rfl⟩

end Fair

theorem share_thread (t : Task) (p : Nat) : (t.share p).thread = t.home := by
  unfold share
  split <;> rfl

theorem share_operations (t : Task) (p : Nat) : (t.share p).operations = [] := by
  unfold share
  split <;> rfl

theorem solo_zero (there : t.units[p]? = some u) : t.solo p 0 =
    (t.start.view t.home p).perform (.commit ((t.share p).units.idxOf u) t.home) := by
  simp only [solo, there]

theorem solo_succ (out : (t.solo p n).returned? 0 = none) :
    t.solo p (n + 1) = (t.solo p n).perform (t.conduct p (t.solo p n)) := by
  simp [solo, out]

namespace Standing

/-- Something is done on a tree, and its commit has come as far as that. -/
theorem touch (h : t.Standing progress d)
    (touches : Division.Touches t.managers t.home p (t.solo p n) d d') :
    t.Standing (Function.update progress p (some n)) d' where
  proper := touches.proper
  waiting := by
    intro q here
    by_cases same : q = p
    · subst same
      rw [Function.update_self] at here
      cases here
    · rw [Function.update_of_ne same] at here
      obtain ⟨shares, view⟩ := touches.others same
      exact ⟨shares.trans (h.waiting here).1, view.trans (h.waiting here).2⟩
  going := by
    intro q m here
    by_cases same : q = p
    · subst same
      rw [Function.update_self] at here
      rw [← Option.some.inj here]
      exact touches.view
    · rw [Function.update_of_ne same] at here
      exact (touches.others same).2.trans (h.going here)
  growth := h.growth.trans touches.growth
  spares := touches.spares h.spares

theorem tick (h : t.Standing progress d) (nanos : Nat) : t.Standing progress (d.tick nanos) where
  proper := h.proper.tick nanos
  waiting := h.waiting
  going := h.going
  growth := h.growth.tick nanos
  spares := h.spares.tick nanos

/-- The commit of a unit is begun as it is begun if the tree is alone. -/
theorem begin (h : t.Standing progress d) (fair : t.Fair threads) (waits : progress p = none)
    (there : t.units[p]? = some u) (allowed : thread = t.home ∨ thread ∈ threads) :
    Division.Touches t.managers t.home p (t.solo p 0) d (d.begin p u thread) := by
  obtain ⟨shares, view⟩ := h.waiting waits
  have lt : p < t.units.length := (List.getElem?_eq_some_iff.mp there).1
  rw [solo_zero there, ← view]
  apply h.proper.begin fair.empty
  · rw [shares]
    exact List.getElem?_idxOf (fair.mem_share there)
  · refine Division.view_handTo (by rw [shares, share_operations]) (by rw [shares, share_thread])
      fun x mem => ?_
    rw [view] at mem
    obtain ⟨x₀, gathered, rfl⟩ := List.mem_map.mp mem
    obtain ⟨v, -, unit⟩ := List.mem_filterMap.mp gathered
    have away := fair.away x₀ (List.mem_of_getElem? unit)
    have same : (x₀.rename ((t.start.shares p).places t.home)).thread = x₀.thread := by
      simp [UnitOfWork.rename, Share.places, start, share_thread]
    rw [same]
    refine ⟨away.1, ?_⟩
    rintro rfl
    exact allowed.elim away.1 away.2
  · rw [view, ← solo_zero there]
    exact fair.awake p 0 lt

/-- What is done next on a tree is done as if the tree were alone. -/
theorem proceed (h : t.Standing progress d) (fair : t.Fair threads) (here : progress p = some n)
    (lt : p < t.units.length) (out : (t.solo p n).returned? 0 = none) :
    Division.Touches t.managers t.home p (t.solo p (n + 1)) d
      (d.proceed (t.conduct p) t.home p) := by
  have view := h.going here
  rw [solo_succ out, ← view]
  apply h.proper.perform fair.empty
  · rw [view]
    exact fair.confined p n lt out
  · rw [view, ← solo_succ out]
    exact fair.awake p (n + 1) lt

/-- A commit has returned what it has returned if the tree is alone. -/
theorem returned? (h : t.Standing progress d) (fair : t.Fair threads) (here : progress p = some n)
    (first : (d.shares p).operations[0]? = some c) :
    d.world.returned? c = (t.solo p n).returned? 0 := by
  have mirrors := (h.proper.fits p).mirrors_view t.home (h.proper.contained fair.empty)
  have same := mirrors.returned? 0
  rwa [show d.world.view t.home (d.shares p) = t.solo p n from h.going here,
    show ((d.shares p).naming t.home d.world).operation 0 = c from nameIn_of_getElem? first]
    at same

/-- The commit that is begun is the next operation in the world, and one more of the tree. -/
theorem operations_begin (h : t.Standing progress d) (fair : t.Fair threads)
    (waits : progress p = none) (there : t.units[p]? = some u) (thread : Nat) :
    ((d.begin p u thread).shares p).operations[0]? = some d.world.operations.length := by
  obtain ⟨shares, -⟩ := h.waiting waits
  have mem := fair.mem_share there
  rw [← shares] at mem
  obtain ⟨s, begun⟩ := World.operations_beginCommit
    (List.getElem?_eq_getElem ((h.proper.fits p).units.2 u mem)) thread
  have handed : (d.handTo p thread).shares p = { d.shares p with thread } :=
    Function.update_self ..
  have grown : (d.begin p u thread).shares p =
      ((d.handTo p thread).shares p).grow d.world (d.world.beginCommit u thread) :=
    Function.update_self ..
  simp [grown, handed, shares, share_operations, Share.grow, begun]

/-- A unit has the identifier that it had at first. -/
theorem id_eq (h : t.Standing progress d) (fair : t.Fair threads) (waits : progress p = none)
    (there : t.units[p]? = some u) :
    (d.world.units[u]?).map UnitOfWork.id = (t.world.units[u]?).map UnitOfWork.id := by
  obtain ⟨shares, view⟩ := h.waiting waits
  have place := List.getElem?_idxOf (fair.mem_share there)
  have seen {d : Division} (proper : d.Proper t.managers) (shares : d.shares p = t.share p) :
      (d.world.units[u]?).map UnitOfWork.id =
        ((d.view t.home p).units[(t.share p).units.idxOf u]?).map UnitOfWork.id := by
    have mirrors := (proper.fits p).mirrors_view t.home (proper.contained fair.empty)
    have same := mirrors.unit ((t.share p).units.idxOf u)
    rw [shares] at same
    rw [show ((t.share p).naming t.home d.world).unit ((t.share p).units.idxOf u) = u from
      nameIn_of_getElem? place] at same
    rw [same, Option.map_map, Division.view, shares]
    rfl
  calc (d.world.units[u]?).map UnitOfWork.id
    _ = ((d.view t.home p).units[(t.share p).units.idxOf u]?).map UnitOfWork.id :=
      seen h.proper shares
    _ = (t.world.units[u]?).map UnitOfWork.id := by
      rw [view, ← seen fair.standing.proper rfl]
      rfl

end Standing

/-! ## The end of a course -/

/-- Once a commit has returned, the tree stays as it is. -/
theorem solo_eq_of_le {m : Nat} (settled : ((t.solo p n).returned? 0).isSome = true) (le : n ≤ m) :
    t.solo p m = t.solo p n := by
  induction m, le using Nat.le_induction with
  | base => rfl
  | succ m _ ih => simp only [solo, ih, settled, if_true]

/-- What holds until a commit returns holds for good. -/
theorem forall_solo {P : World → Prop} {m : Nat}
    (settled : ((t.solo p m).returned? 0).isSome = true) (meanwhile : ∀ n ≤ m, P (t.solo p n))
    (n : Nat) : P (t.solo p n) := by
  rcases Nat.le_total n m with le | le
  · exact meanwhile n le
  · rw [solo_eq_of_le settled le]
    exact meanwhile m (Nat.le_refl m)

/-- A commit returns at one state of its tree. -/
theorem solo_eq_of_returned {m : Nat} (settled : ((t.solo p n).returned? 0).isSome = true)
    (settled' : ((t.solo p m).returned? 0).isSome = true) : t.solo p m = t.solo p n := by
  rcases Nat.le_total n m with le | le
  · exact solo_eq_of_le settled le
  · exact (solo_eq_of_le settled' le).symm

end Task

end NestedWork
