import NestedWork.Proofs.World.Farewell
import NestedWork.Proofs.World.Timeout

/-!
# The roll of a registry

A registry keeps the units that were opened under it and that nobody has released. Whatever it is
asked about a unit, it answers by those that it keeps among the descendants of the unit, however far
below they are and whatever has become of the units between.

## Implementation notes

A unit that is being released is marked as disposed before its manager is told, and so it is still
kept for a while. Nobody else parts from it then. A registry takes up a unit as it is opened and
lets go of one as the operation that parts from it returns. No other action is anything to it.
-/

namespace NestedWork

namespace World

variable {w w₁ w' : World} {c m n u v thread : Nat} {x : UnitOfWork} {s : Stage}

/-! ## Who is on the roll -/

/-- A unit is due on the roll of a manager: the manager's it is, and it is not disposed or an
operation has yet to part from it. -/
def Due (w : World) (m v : Nat) : Prop :=
  ∃ x, w.units[v]? = some x ∧ x.manager = m ∧
    (x.disposed = false ∨ ∃ c, w.isAt v c Stage.isParting = true)

/-- A registry keeps the units that are due, each once. -/
def Enrolled (w : World) (m : Nat) : Prop :=
  ∃ live, w.managers[m]? = some (.registry live) ∧ live.Nodup ∧ ∀ v, v ∈ live ↔ w.Due m v

/-- An operation parts from a unit: the unit is disposed, and no other operation parts from it. -/
structure Departs (w : World) (c u : Nat) : Prop where
  parting : w.isAt u c Stage.isParting = true
  gone : w.isDisposed u = true
  sole : ∀ d, w.isAt u d Stage.isParting = true → d = c

theorem Phase.departs {done : List Parting} (phase : w.Phase u done)
    (parting : w.isAt u c Stage.isParting = true) : w.Departs c u := by
  cases phase with
  | whole _ _ idle | parted _ _ _ idle => cases (idle c).symm.trans parting
  | disposing gone _ _ sole | surrendering _ _ gone _ _ _ sole =>
      refine ⟨parting, gone, fun d there => ?_⟩
      rw [sole d there, sole c parting]

namespace SameRoll

theorem due (h : w.SameRoll w') (due : w.Due m v) : w'.Due m v := by
  obtain ⟨x, unit, built, kept⟩ := due
  obtain ⟨x', unit', same⟩ := h.exists_unit unit
  obtain ⟨manager, disposed⟩ := Prod.mk.inj same
  refine ⟨x', unit', manager.trans built, kept.imp disposed.trans ?_⟩
  rintro ⟨c, parting⟩
  exact ⟨c, (h.parting v c).trans parting⟩

theorem enrolled (h : w.SameRoll w') (enrolled : w.Enrolled m) : w'.Enrolled m := by
  obtain ⟨live, registry, nodup, mem⟩ := enrolled
  exact ⟨live, by rw [h.managers, registry], nodup,
    fun v => (mem v).trans ⟨h.due, h.symm.due⟩⟩

theorem departs (h : w.SameRoll w') (departs : w.Departs c u) : w'.Departs c u where
  parting := (h.parting u c).trans departs.parting
  gone := by
    obtain ⟨x, unit, gone⟩ := exists_of_isDisposed departs.gone
    obtain ⟨x', unit', same⟩ := h.exists_unit unit
    rw [isDisposed_of unit', (Prod.mk.inj same).2, gone]
  sole := fun d there => departs.sole d ((h.parting u d).symm.trans there)

end SameRoll

/-! ## Releases -/

/-- A unit that is marked disposed is due until the operation that has marked it parts from it. -/
theorem Enrolled.mark (h : w.Enrolled m) (unit : w.units[u]? = some x) (whole : x.disposed = false)
    (running : w.operations[c]? = some ⟨u, thread, s⟩) :
    ((w.modifyUnit u fun x => { x with disposed := true }).moveTo c .disposal).Enrolled m := by
  obtain ⟨live, registry, nodup, mem⟩ := h
  refine ⟨live, registry, nodup, fun v => (mem v).trans ?_⟩
  generalize eq : (w.modifyUnit u fun x => { x with disposed := true }).moveTo c .disposal = w'
  have here : w'.isAt u c Stage.isParting = true := by
    subst eq
    simp [isAt, moveTo, modifyUnit, running, Stage.isParting]
  by_cases same : u = v
  · subst same
    have marked : w'.units[u]? = some { x with disposed := true } := by
      subst eq
      simp [moveTo, modifyUnit, unit]
    constructor
    · rintro ⟨y, unit', built, -⟩
      obtain rfl := Option.some.inj (unit.symm.trans unit')
      exact ⟨_, marked, built, .inr ⟨c, here⟩⟩
    · rintro ⟨y, unit', built, -⟩
      obtain rfl := Option.some.inj (marked.symm.trans unit')
      exact ⟨x, unit, built, .inl whole⟩
  · have other : w'.units[v]? = w.units[v]? := by
      subst eq
      simp [moveTo, modifyUnit, same]
    have parting (d : Nat) : w'.isAt v d Stage.isParting = w.isAt v d Stage.isParting := by
      subst eq
      by_cases there : c = d
      · subst there
        simp [isAt, moveTo, modifyUnit, running, beq_false_of_ne same]
      · exact isAt_moveTo_ne (w := w.modifyUnit u _) there
    simp only [Due, other, parting]

/-- Once the operation that parts from a unit has done so, the unit is due no longer. -/
theorem Departs.due_iff (h : w.Departs c u) (away : s.isParting = false) (w' : World)
    (units : w'.units = w.units) (operations : w'.operations = (w.moveTo c s).operations)
    (m v : Nat) : w'.Due m v ↔ w.Due m v ∧ v ≠ u := by
  obtain ⟨x, unit, gone⟩ := exists_of_isDisposed h.gone
  obtain ⟨thread, s₀, running, -⟩ := isAt_iff.mp h.parting
  have here : w'.isAt v c Stage.isParting = false := by
    simp [isAt, operations, moveTo, running, away]
  have elsewhere {d : Nat} (ne : c ≠ d) :
      w'.isAt v d Stage.isParting = w.isAt v d Stage.isParting := by
    rw [isAt, operations, ← isAt_moveTo_ne (s := s) ne, isAt]
  by_cases same : v = u
  · subst same
    simp only [ne_eq, not_true_eq_false, and_false, iff_false]
    rintro ⟨y, unit', -, whole | ⟨d, there⟩⟩
    · obtain rfl := Option.some.inj (unit.symm.trans (units ▸ unit'))
      cases gone.symm.trans whole
    · by_cases at_c : c = d
      · subst at_c
        cases here.symm.trans there
      · exact at_c (h.sole d ((elsewhere at_c).symm.trans there)).symm
  · have parting (d : Nat) : w'.isAt v d Stage.isParting = w.isAt v d Stage.isParting := by
      by_cases at_c : c = d
      · subst at_c
        rw [here]
        simp [isAt, running, beq_false_of_ne (Ne.symm same)]
      · exact elsewhere at_c
    simp only [Due, units, parting, ne_eq, same, not_false_eq_true, and_true]

/-- The registry lets go of a unit as the operation parts from it. -/
theorem Enrolled.bidFarewell (h : w.Enrolled m) (departs : w.Departs c u) :
    (w.bidFarewell c u).Enrolled m := by
  obtain ⟨x, unit, -⟩ := exists_of_isDisposed departs.gone
  obtain ⟨live, registry, nodup, mem⟩ := h
  have foreign (other : x.manager ≠ m) (v : Nat) : v ∈ live ↔ w.Due m v ∧ v ≠ u := by
    rw [mem v, iff_self_and]
    rintro ⟨y, unit', built, -⟩ rfl
    obtain rfl := Option.some.inj (unit.symm.trans unit')
    exact other built
  simp only [World.bidFarewell, unit]
  split
  next external =>
    have other : x.manager ≠ m := by
      rintro rfl
      simp [isExternal, registry] at external
    have due := departs.due_iff rfl (w.moveTo c .farewell) rfl rfl m
    exact ⟨live, registry, nodup, fun v => (foreign other v).trans (due v).symm⟩
  next =>
    have due := departs.due_iff rfl ((w.forget x.manager u).moveTo c (.done .returned)) rfl rfl m
    by_cases own : x.manager = m
    · refine ⟨live.filter fun v => v != u, ?_, nodup.filter _, fun v => ?_⟩
      · simp [moveTo, forget, own, registry]
      · rw [due v, List.mem_filter, mem v, bne_iff_ne]
    · refine ⟨live, ?_, nodup, fun v => (foreign own v).trans (due v).symm⟩
      simp [moveTo, forget, own, registry]

/-! ## Openings -/

/-- A unit that has just been opened is due, and its registry takes it up. -/
theorem Enrolled.enrol (h : w.Enrolled m) (whole : x.disposed = false) (built : x.manager = n) :
    (World.register { w with units := w.units ++ [x] } n w.units.length).Enrolled m := by
  obtain ⟨live, registry, nodup, mem⟩ := h
  generalize eq : World.register { w with units := w.units ++ [x] } n w.units.length = w'
  have due (v : Nat) : w'.Due m v ↔ w.Due m v ∨ v = w.units.length ∧ n = m := by
    subst eq
    rcases Nat.lt_trichotomy v w.units.length with lt | rfl | gt
    · have old : (w.units ++ [x])[v]? = w.units[v]? := List.getElem?_append_left lt
      simp [Due, register, isAt, old, Nat.ne_of_lt lt]
    · simp [Due, register, whole, built]
    · have absent : w.units[v]? = none := List.getElem?_eq_none (Nat.le_of_lt gt)
      have beyond : (w.units ++ [x])[v]? = none := List.getElem?_eq_none (by simp; omega)
      simp [Due, register, absent, beyond, Nat.ne_of_gt gt]
  have unknown : w.units.length ∉ live := by
    rw [mem]
    rintro ⟨y, unit, -⟩
    simp at unit
  by_cases own : n = m
  · refine ⟨live ++ [w.units.length], ?_, ?_, fun v => ?_⟩
    · subst eq own
      simp [register, registry, unknown]
    · exact List.nodup_append_comm.mp (List.nodup_cons.mpr ⟨unknown, nodup⟩)
    · rw [due v, List.mem_append, mem v, List.mem_singleton, and_iff_left own]
  · refine ⟨live, ?_, nodup, fun v => ?_⟩
    · subst eq
      simp [register, registry, own]
    · simp only [due v, mem v, own, and_false, or_false]

/-! ## Runs -/

/-- A registry keeps the units that are due whatever an action is to it. -/
theorem Rolls.enrolled (rolls : w.Rolls w') (h : w.Enrolled m)
    (departs : ∀ c u, w.isAt u c Stage.isParting = true → w.Departs c u) : w'.Enrolled m := by
  cases rolls with
  | same same => exact same.enrolled h
  | enrols before whole after => exact after.enrolled ((before.enrolled h).enrol whole rfl)
  | marks before unit whole running => exact (before.enrolled h).mark unit whole running
  | @departs _ c u before parting =>
      exact (before.enrolled h).bidFarewell (before.departs (departs c u parting))

/-- In every run, a registry that starts empty keeps the units that are due, each once. -/
theorem enrolled_run (managers : List Manager) (past : List Action)
    (registry : managers[m]? = some (.registry [])) :
    ((initial managers).run past).Enrolled m := by
  induction past using List.reverseRecOn with
  | nil => exact ⟨[], registry, List.nodup_nil, fun v => by simp [Due, initial]⟩
  | append_singleton past a ih =>
      rw [run_append]
      obtain ⟨ws, course⟩ := exists_course managers past
      exact (rolls_perform _ a).enrolled ih fun c u parting => (course.phase u).departs parting

/-! ## Descendants -/

/-- A unit is the parent of another. -/
def IsParent (w : World) (p v : Nat) : Prop :=
  ∃ x, w.units[v]? = some x ∧ x.parent? = some p

/-- The ancestors of a unit are its parent, the parent of that one, and so on. -/
theorem Nested.hasAncestor_iff (h : w.Nested) :
    w.hasAncestor v u = true ↔ Relation.TransGen w.IsParent u v := by
  constructor
  · intro above
    cases unit : w.units[v]? with
    | none => simp [hasAncestor, unit] at above
    | some x =>
        have mem : u ∈ x.lineage := by simpa [hasAncestor, unit] using above
        generalize eq : x.lineage = lineage at mem
        clear above
        induction lineage generalizing v x with
        | nil => cases mem
        | cons p rest ih =>
            obtain ⟨y, parent, lineage, -⟩ := h.parent unit eq
            have child : w.IsParent p v := ⟨x, unit, by simp [UnitOfWork.parent?, eq]⟩
            rcases List.mem_cons.mp mem with rfl | mem
            · exact .single child
            · exact .tail (ih y parent lineage mem) child
  · have child {p v : Nat} (parent : w.IsParent p v) : ∃ x rest, w.units[v]? = some x ∧
        x.lineage = p :: rest := by
      obtain ⟨x, unit, first⟩ := parent
      exact ⟨x, _, unit, List.eq_cons_of_mem_head? first⟩
    intro below
    induction below with
    | single parent =>
        obtain ⟨x, rest, unit, lineage⟩ := child parent
        simp [hasAncestor, unit, lineage]
    | tail _ parent ih =>
        obtain ⟨x, rest, unit, lineage⟩ := child parent
        obtain ⟨y, above, under, -⟩ := h.parent unit lineage
        simp only [hasAncestor, above, under] at ih
        simp only [hasAncestor, unit, lineage, List.contains_cons, ih, Bool.or_true]

/-! ## The roll of a registry -/

theorem length_filter_range {α : Type} (p : α → Bool) (l : List α) :
    ((List.range l.length).filter fun i => (l[i]?).any p).length = l.countP p := by
  induction l using List.reverseRecOn with
  | nil => rfl
  | append_singleton front a ih =>
      have old : (List.range front.length).filter (fun i => ((front ++ [a])[i]?).any p) =
          (List.range front.length).filter fun i => (front[i]?).any p := by
        refine List.filter_congr fun i mem => ?_
        rw [List.getElem?_append_left (List.mem_range.mp mem)]
      rw [List.length_append, List.length_singleton, List.range_succ, List.filter_append, old,
        List.length_append, ih, List.countP_append]
      cases here : p a <;> simp [here]

section Settled

variable (settled : ∀ v c x, w.units[v]? = some x → x.manager = m →
  w.isAt v c Stage.isParting = false)

include settled

/-- While nobody parts from a unit, those that are not disposed are due. -/
theorem due_iff_of_settled : w.Due m v ↔
    (w.units[v]?).any (fun x => x.manager == m && !x.disposed) = true := by
  cases unit : w.units[v]? with
  | none => simp [Due, unit]
  | some x =>
      simp only [Due, unit, Option.some.injEq, exists_eq_left', Option.any_some, Bool.and_eq_true,
        beq_iff_eq, Bool.not_eq_true']
      refine and_congr_right fun built => or_iff_left ?_
      rintro ⟨c, parting⟩
      cases (settled v c x unit built).symm.trans parting

/-- The registry keeps as many units as there are that were opened under it and not disposed. -/
theorem Enrolled.keptCount_eq (h : w.Enrolled m) :
    w.keptCount m = w.units.countP fun x => x.manager == m && !x.disposed := by
  obtain ⟨live, registry, nodup, mem⟩ := h
  have perm : live.Perm ((List.range w.units.length).filter fun v =>
      (w.units[v]?).any fun x => x.manager == m && !x.disposed) := by
    refine (List.perm_ext_iff_of_nodup nodup (List.nodup_range.filter _)).mpr fun v => ?_
    rw [mem v, due_iff_of_settled settled, List.mem_filter, List.mem_range, iff_and_self]
    intro here
    by_contra beyond
    rw [List.getElem?_eq_none (Nat.le_of_not_lt beyond)] at here
    cases here
  simp only [keptCount, registry]
  rw [perm.length_eq, length_filter_range]

end Settled

theorem Enrolled.keeps_iff (h : w.Enrolled m) : w.keeps m v = true ↔ w.Due m v := by
  obtain ⟨live, registry, -, mem⟩ := h
  simp [keeps, registry, mem v]

theorem Enrolled.isClosed_iff (h : w.Enrolled m) (kept : w.keeps m v = true) :
    w.isClosed v = true ↔ ∃ x, w.units[v]? = some x ∧
      (x.status = .committed ∨ x.status = .aborted) := by
  obtain ⟨x, unit, -⟩ := h.keeps_iff.mp kept
  simp only [isClosed, unit, Option.some.injEq, exists_eq_left']
  cases x.status <;> simp [Status.isTerminal]

/-- A registry lets a unit commit once every descendant that it keeps is closed. -/
theorem Enrolled.admits?_eq (h : w.Enrolled m) (nested : w.Nested) (u : Nat) :
    ∃ yes, w.admits? m u = some yes ∧ (yes = true ↔
      ∀ v, w.keeps m v = true → Relation.TransGen w.IsParent u v → w.isClosed v = true) := by
  obtain ⟨live, registry, -⟩ := h
  refine ⟨w.registryAdmits live u, by simp [admits?, registry], ?_⟩
  simp only [registryAdmits, descendantsIn, keeps, registry, ← nested.hasAncestor_iff,
    List.all_eq_true, List.mem_filter, List.contains_iff_mem, and_imp]

/-- A registry lets a unit be disposed once it keeps no descendant. -/
theorem Enrolled.permits?_eq (h : w.Enrolled m) (nested : w.Nested) (u : Nat) :
    ∃ yes, w.permits? m u = some yes ∧ (yes = true ↔
      ∀ v, w.keeps m v = true → ¬ Relation.TransGen w.IsParent u v) := by
  obtain ⟨live, registry, -⟩ := h
  refine ⟨w.registryPermits live u, by simp [permits?, registry], ?_⟩
  simp [registryPermits, descendantsIn, keeps, registry, nested.hasAncestor_iff,
    List.filter_eq_nil_iff]

/-- The answers of a registry are exact.

In every run, when nobody is releasing a unit of its, a registry that started empty keeps those
units that were opened under it and are not disposed, and it counts them. It lets a unit commit if
and only if all of them that have the unit for a strict ancestor, at any depth and whatever has
become of the units between, are committed or aborted. It lets a unit be disposed if and only if
there is none. -/
theorem registry_exact (managers : List Manager) (past : List Action) (m : Nat)
    (registry : managers[m]? = some (.registry [])) :
    let w := (initial managers).run past
    (∀ v c x, w.units[v]? = some x → x.manager = m → w.isAt v c Stage.isParting = false) →
    (∀ v, w.keeps m v = true ↔
      ∃ x, w.units[v]? = some x ∧ x.manager = m ∧ x.disposed = false) ∧
    w.keptCount m = w.units.countP (fun x => x.manager == m && !x.disposed) ∧
    (∀ u, ∃ yes, w.admits? m u = some yes ∧ (yes = true ↔
      ∀ v x, w.keeps m v = true → Relation.TransGen w.IsParent u v → w.units[v]? = some x →
        x.status = .committed ∨ x.status = .aborted)) ∧
    ∀ u, ∃ yes, w.permits? m u = some yes ∧ (yes = true ↔
      ¬ ∃ v, w.keeps m v = true ∧ Relation.TransGen w.IsParent u v) := by
  intro w settled
  have enrolled : w.Enrolled m := enrolled_run managers past registry
  have nested : w.Nested := (graded_run managers past).nested
  refine ⟨fun v => ?_, enrolled.keptCount_eq settled, fun u => ?_, fun u => ?_⟩
  · rw [enrolled.keeps_iff, due_iff_of_settled settled]
    cases w.units[v]? <;> simp
  · obtain ⟨yes, admits, iff⟩ := enrolled.admits?_eq nested u
    refine ⟨yes, admits, iff.trans (forall_congr' fun v => ?_)⟩
    constructor
    · intro closed x kept below unit
      obtain ⟨y, unit', ended⟩ := (enrolled.isClosed_iff kept).mp (closed kept below)
      rwa [Option.some.inj (unit.symm.trans unit')]
    · intro ended kept below
      obtain ⟨x, unit, -⟩ := enrolled.keeps_iff.mp kept
      exact (enrolled.isClosed_iff kept).mpr ⟨x, unit, ended x kept below unit⟩
  · obtain ⟨yes, permits, iff⟩ := enrolled.permits?_eq nested u
    exact ⟨yes, permits, iff.trans (by simp only [not_exists, not_and])⟩

/-- A root and a grandchild under a registry, with a child between that another manager has and that
has been dropped. -/
def droppedBetween : List Action :=
  [.openUnit ⟨"root", "shared", none, 0, 0, .default⟩,
    .openUnit ⟨"child", "spare", some 0, 0, 1, .default⟩,
    .openUnit ⟨"grandchild", "spare", some 1, 0, 0, .default⟩,
    .release 1 0 true, .answer (.operation 3) .done]

/-- A root that a grandchild holds up, past a child that is gone. -/
theorem registry_exact_dropped_between :
    let w := (initial [.registry [], .permissive]).run droppedBetween
    w.isDisposed 1 = true ∧ w.keptCount 0 = 2 ∧ w.admits? 0 0 = some false := by
  intro w
  have idle (c : Nat) : w.Idle c := by
    rcases c with _ | _ | _ | _ | c
    iterate 4 exact idle_of rfl rfl
    exact fun _ => rfl
  obtain ⟨-, count, admits, -⟩ := registry_exact [.registry [], .permissive] droppedBetween 0 rfl
    fun v c _ _ _ => idle c v
  obtain ⟨yes, answer, iff⟩ := admits 0
  have open_below : yes = false := by
    refine Bool.eq_false_iff.mpr fun closed => ?_
    have below : Relation.TransGen w.IsParent 0 2 :=
      .tail (.single (b := 1) ⟨_, rfl, rfl⟩) ⟨_, rfl, rfl⟩
    rcases iff.mp closed 2 _ rfl below rfl with ended | ended <;> cases ended
  exact ⟨rfl, count.trans rfl, answer.trans (congrArg some open_below)⟩

end World

end NestedWork
