import NestedWork.Proofs.World.Admission

/-!
# The one release of a unit

A unit is released once: its capability disposes of the resources, a root gives up its handle on the
transaction, and the manager is told. The operation that marks the unit disposed does all three, and
every other one finds the mark. A drop that finds none sets it, whatever the manager says.

## Implementation notes

What is done in a release is read off a course of the run, step by step, as calls of a capability
are. Between the disposal of the resources and the word to the manager an operation is parting from
its unit. At most one does so at a time, and where it has come to says what has been done so far.

A handle that is not the last one is given up and the manager is told in one step. The manager is
told in the world after it, where the handle is gone.

The word to the manager is read off the operation, which parts from its unit by it. That a manager
outside this world is to hear it from then on, and that a registry lets go of the unit then, is
shown for every step and for every action of a run in `NestedWork.Proofs.World.Farewell`.
-/

namespace NestedWork

/-- What is done in the release of a unit. -/
inductive Parting where
  /-- The capability is called to dispose of the resources, by an operation. -/
  | disposes (operation : Nat)
  /-- The root gives up its handle on the transaction. -/
  | yields
  /-- The manager is told that the unit is disposed, by an operation. -/
  | tells (operation : Nat)
deriving DecidableEq, Repr

/-- A whole release by one operation, of a root or of a nested unit. -/
def Parting.full (root : Bool) (c : Nat) : List Parting :=
  [disposes c] ++ (if root then [yields] else []) ++ [tells c]

namespace Stage

/-- The capability disposes of its resources. -/
def isDisposal : Stage → Bool
  | disposal => true
  | _ => false

/-- The unit is being released, and its manager has not been told. -/
def isParting : Stage → Bool
  | disposal | surrender _ => true
  | _ => false

/-- The operation is to release its unit, whatever the manager says, and the manager has not been
told. -/
def isDeparting : Stage → Bool
  | permission dropping => dropping
  | disposal | surrender _ => true
  | _ => false

theorem eq_disposal {s : Stage} (here : s.isDisposal = true) : s = disposal := by
  cases s <;> first | rfl | cases here

theorem isDeparting_of_isParting {s : Stage} (parting : s.isParting = true) :
    s.isDeparting = true := by
  cases s <;> first | rfl | cases parting

end Stage

/-- A root that comes to hold a transaction. -/
def UnitOfWork.found (n : Nat) (x : UnitOfWork) : UnitOfWork :=
  { x with slot := .live n, handles := x.handles + 1 }

namespace World

variable {w w' : World} {a : Action} {l : Label} {c d u v n thread : Nat} {x x' : UnitOfWork}
  {s s' : Stage} {f : UnitOfWork → UnitOfWork} {actions : List Transaction.Action}
  {done : List Parting}

/-! ## What a step makes of a unit -/

/-- A unit after a step: all that it holds is as before, it comes to hold a fresh transaction, or an
operation on it takes a turn. -/
inductive Became (w w' : World) (l : Label) (u : Nat) (x : UnitOfWork) : UnitOfWork → Prop
  | kept (options : TransactionOptions) (committing : Bool) :
      Became w w' l u x { x with options, committing }
  | founded (unit : ∃ v y, w.units[v]? = some y ∧ u = w.rootOf v) (pending : x.slot = .pending)
      (after : w' = w.foundAt u x) :
      Became w w' l u x (x.found w.transactions.length)
  | turned {x' : UnitOfWork} (turn : TakesTurn w w' l u x x') : Became w w' l u x x'

/-- A step is no turn of an operation on a unit. -/
def Bypasses (w w' : World) (l : Label) (u : Nat) : Prop :=
  ∀ {x x' : UnitOfWork}, w.units[u]? = some x → ¬ TakesTurn w w' l u x x'

/-- A step is a turn of an operation on a unit, or it is none. -/
theorem takesTurn_or_bypasses (w w' : World) (l : Label) (u : Nat) :
    (∃ x x', w.units[u]? = some x ∧ TakesTurn w w' l u x x') ∨ Bypasses w w' l u := by
  by_cases turn : ∃ x x', w.units[u]? = some x ∧ TakesTurn w w' l u x x'
  · exact .inl turn
  · exact .inr fun unit takes => turn ⟨_, _, unit, takes⟩

theorem units_foundAt (w : World) (r : Nat) (y : UnitOfWork) :
    (w.foundAt r y).units = w.units.modify r (UnitOfWork.found w.transactions.length) := rfl

theorem became_modifyUnit {options : UnitOfWork → TransactionOptions}
    {committing : UnitOfWork → Bool} (unit : w.units[u]? = some x) (units : w'.units =
      (w.modifyUnit v fun x => { x with options := options x, committing := committing x }).units)
    (unit' : w'.units[u]? = some x') : Became w w' l u x x' := by
  rw [units] at unit'
  by_cases same : v = u
  · subst same
    obtain rfl : { x with options := options x, committing := committing x } = x' := by
      simpa [modifyUnit, unit] using unit'
    exact .kept _ _
  · obtain rfl : x = x' := by simpa [modifyUnit, same, unit] using unit'
    exact .kept _ _

theorem Step.became (step : w.Step l w') (unit : w.units[u]? = some x)
    (unit' : w'.units[u]? = some x') : Became w w' l u x x' := by
  have kept (after : w'.units[u]? = some x) : Became w w' l u x x' := by
    obtain rfl := Option.some.inj (unit'.symm.trans after)
    exact .kept _ _
  cases step with
  | lower => exact became_modifyUnit unit rfl unit'
  | lowerLive => exact became_modifyUnit unit rfl unit'
  | accept => exact became_modifyUnit unit rfl unit'
  | openUnit o options => exact kept (forth_openedUnit o options unit)
  | @found c v thread y z asks unit₁ root pending =>
      by_cases same : w.rootOf v = u
      · subst same
        obtain rfl := Option.some.inj (unit.symm.trans root)
        obtain rfl : x.found w.transactions.length = x' := by
          simpa [units_foundAt, unit] using unit'
        exact .founded ⟨v, y, unit₁, rfl⟩ pending rfl
      · exact kept (by simpa [units_foundAt, same] using unit)
  | @turn l d v thread n y s s' f actions running unit₁ turns =>
      by_cases same : v = u
      · subst same
        obtain rfl := Option.some.inj (unit.symm.trans unit₁)
        obtain rfl := Option.some.inj (unit'.symm.trans (units_evolve unit))
        exact .turned (.turn running turns rfl)
      · exact kept ((units_evolve_ne same).trans unit)
  | _ => exact kept unit

/-- A unit that was not there before has just been opened. -/
theorem Step.opened (step : w.Step l w') (absent : w.units[u]? = none)
    (unit : w'.units[u]? = some x') : ∃ o options, x' = w.openedUnit o options := by
  have modified {v : Nat} {f : UnitOfWork → UnitOfWork} (units : w'.units = w.units.modify v f) :
      ∃ o options, x' = w.openedUnit o options := by
    simp [units, List.getElem?_modify, absent] at unit
  cases step with
  | openUnit o options =>
      rcases back_openedUnit unit with before | ⟨-, rfl⟩
      · cases absent.symm.trans before
      · exact ⟨o, options, rfl⟩
  | lower | lowerLive | accept | found | turn => exact modified rfl
  | _ => cases absent.symm.trans unit

/-! ## What is done between two worlds -/

/-- An operation on a unit is at a stage of some kind. -/
def isAt (w : World) (u c : Nat) (p : Stage → Bool) : Bool :=
  (w.operations[c]?).any fun o => o.unit == u && p o.stage

/-- The capability of a unit disposes of its resources for an operation. -/
def isDisposing (w : World) (u c : Nat) : Bool :=
  match w.need (.operation c) with
  | .dispose v => v == u
  | _ => false

/-- A unit is disposed. -/
def isDisposed (w : World) (u : Nat) : Bool := (w.units[u]?).any UnitOfWork.disposed

/-- A unit has given up its hold on the transaction. -/
def hasYielded (w : World) (u : Nat) : Bool := (w.units[u]?).any fun x => x.slot == .released

/-- What is done in the release of a unit between two worlds. An operation tells the manager as it
parts from the unit. -/
def partingsBetween (u : Nat) (w w' : World) : List Parting :=
  ((List.range w'.operations.length).filter fun c =>
      w'.isDisposing u c && !w.isDisposing u c).map .disposes ++
    (if w'.hasYielded u && !w.hasYielded u then [.yields] else []) ++
    ((List.range w'.operations.length).filter fun c =>
      w.isAt u c Stage.isParting && !w'.isAt u c Stage.isParting).map .tells

/-- What is done in the release of a unit, in the order in which it is done. -/
def partings (u : Nat) : List World → List Parting
  | w :: w' :: rest => partingsBetween u w w' ++ partings u (w' :: rest)
  | _ => []

theorem partings_append (u : Nat) (front : List World) (w : World) (rest : List World) :
    partings u (front ++ w :: rest) = partings u (front ++ [w]) ++ partings u (w :: rest) :=
  gathered_append (fun _ => rfl) (fun _ _ _ => rfl) front w rest

theorem partings_concat (u : Nat) (front : List World) (w w' : World) :
    partings u (front ++ [w] ++ [w']) = partings u (front ++ [w]) ++ partingsBetween u w w' :=
  gathered_concat (fun _ => rfl) (fun _ _ _ => rfl) front w w'

theorem needOfCall_ne_dispose (w : World) (i : Inner) (v : Nat) :
    w.needOfCall i ≠ .dispose v := by
  unfold needOfCall
  split <;> simp

theorem isDisposing_eq (w : World) (u c : Nat) :
    w.isDisposing u c = w.isAt u c Stage.isDisposal := by
  cases running : w.operations[c]? with
  | none => simp [isDisposing, isAt, need, running]
  | some o =>
      obtain ⟨v, thread, s⟩ := o
      cases s with
      | leaving _ _ i | discarding _ _ i | completing _ i | yielding _ i | surrender i =>
          have other := w.needOfCall_ne_dispose i
          cases need : w.needOfCall i <;>
            simp_all [isDisposing, isAt, World.need, needOfOperation, Stage.isDisposal]
      | _ => simp [isDisposing, isAt, need, needOfOperation, running, Stage.isDisposal]

section IsAt

variable {p : Stage → Bool}

theorem isAt_iff : w.isAt u c p = true ↔
    ∃ thread s, w.operations[c]? = some ⟨u, thread, s⟩ ∧ p s = true := by
  cases running : w.operations[c]? with
  | none => simp [isAt, running]
  | some o =>
      obtain ⟨v, thread, s⟩ := o
      simp only [isAt, running, Option.any_some, Bool.and_eq_true, beq_iff_eq, Option.some.injEq]
      constructor
      · rintro ⟨rfl, here⟩
        exact ⟨thread, s, rfl, here⟩
      · rintro ⟨thread', s', eq, here⟩
        cases eq
        exact ⟨rfl, here⟩

theorem isAt_of (running : w.operations[c]? = some ⟨u, thread, s⟩) : w.isAt u c p = p s := by
  simp [isAt, running]

/-- Nobody is at a stage of some kind if nobody is at one of a wider kind. -/
theorem isAt_of_imp {q : Stage → Bool} (imp : ∀ s, p s = true → q s = true)
    (none : w.isAt u c q = false) : w.isAt u c p = false := by
  refine Bool.eq_false_iff.mpr fun here => ?_
  obtain ⟨thread, s, running, there⟩ := isAt_iff.mp here
  have wide := isAt_of (p := q) running
  rw [none, imp s there] at wide
  cases wide

theorem isDisposed_of (unit : w.units[u]? = some x) : w.isDisposed u = x.disposed := by
  simp [isDisposed, unit]

theorem exists_of_isDisposed (gone : w.isDisposed u = true) :
    ∃ x, w.units[u]? = some x ∧ x.disposed = true := by
  cases unit : w.units[u]? with
  | none => simp [isDisposed, unit] at gone
  | some x => exact ⟨x, rfl, by rwa [isDisposed_of unit] at gone⟩

theorem hasYielded_of (unit : w.units[u]? = some x) :
    w.hasYielded u = (x.slot == .released) := by
  simp [hasYielded, unit]

theorem isAt_push {o : Operation} (early : p o.stage = false) (u c : Nat) :
    (w.push o).isAt u c p = w.isAt u c p := by
  rcases Nat.lt_trichotomy c w.operations.length with lt | rfl | gt
  · simp [isAt, push, List.getElem?_append_left lt]
  · simp [isAt, push, early]
  · have beyond : (w.operations ++ [o])[c]? = none := List.getElem?_eq_none (by simp; omega)
    simp [isAt, push, beyond, List.getElem?_eq_none (Nat.le_of_lt gt)]

theorem isAt_moveTo_ne (ne : c ≠ d) : (w.moveTo c s).isAt u d p = w.isAt u d p := by
  simp [isAt, moveTo, ne]

/-- A step that is no turn on a unit leaves the operations that are in the middle of dealing with
it. -/
theorem Step.isAt_eq (step : w.Step l w')
    (late : ∀ s, p s = true → s.isOpening = false ∧ s.isAside = false)
    (bypasses : Bypasses w w' l u) (c : Nat) : w'.isAt u c p = w.isAt u c p := by
  have early {s : Stage} (here : s.isOpening = true ∨ s.isAside = true) : p s = false := by
    cases eq : p s with
    | false => rfl
    | true => simp [late s eq] at here
  cases step with
  | refuse | release => exact isAt_push (early (.inl rfl)) u c
  | accept => exact isAt_push (w := w.modifyUnit _ _) (early (.inl rfl)) u c
  | push kind =>
      refine isAt_push (early (.inl ?_)) u c
      rcases kind with rfl | rfl | rfl <;> rfl
  | @turn l d v thread n x s s' f actions running unit turns =>
      by_cases same : v = u
      · subst same
        exact absurd (.turn running turns rfl) (bypasses unit)
      · by_cases here : d = c
        · subst here
          have other : (v == u) = false := by simpa using same
          simp [isAt, operations_evolve running, running, other]
        · rw [isAt, operations_evolve_ne here, isAt]
  | @answered d v thread s running waits =>
      by_cases here : d = c
      · subst here
        have idle : p s = false := by
          rcases waits with rfl | rfl | rfl <;> exact early (.inr rfl)
        have returned : p (.done .returned) = false := early (.inr rfl)
        simp [isAt, moveTo, running, idle, returned]
      · exact isAt_moveTo_ne here
  | _ => rfl

end IsAt

/-- Of the units, a release changes only that of its operation. -/
theorem Step.any_eq (step : w.Step l w') {p : UnitOfWork → Bool}
    (kept : ∀ x options committing, p { x with options, committing } = p x)
    (founded : ∀ x n, x.slot = .pending → p (x.found n) = p x)
    (fresh : ∀ o options, p (w.openedUnit o options) = false) (bypasses : Bypasses w w' l u) :
    (w'.units[u]?).any p = (w.units[u]?).any p := by
  cases unit : w.units[u]? with
  | none =>
      cases unit' : w'.units[u]? with
      | none => rfl
      | some x' =>
          obtain ⟨o, options, rfl⟩ := step.opened unit unit'
          simp [fresh]
  | some x =>
      obtain ⟨x', unit', -⟩ := step.forth unit
      rw [unit']
      cases step.became unit unit' with
      | kept options committing => simp [kept]
      | founded _ pending => simp [founded x _ pending]
      | turned turn => exact absurd turn (bypasses unit)

/-! ## The phases of a release -/

/-- How far the release of a unit has come, and what has been done of it. -/
inductive Phase (w : World) (u : Nat) : List Parting → Prop
  | whole (here : w.isDisposed u = false) (holds : w.hasYielded u = false)
      (idle : ∀ c, w.isAt u c Stage.isParting = false) : Phase w u []
  | disposing {c : Nat} (gone : w.isDisposed u = true) (holds : w.hasYielded u = false)
      (running : w.isAt u c Stage.isDisposal = true)
      (sole : ∀ d, w.isAt u d Stage.isParting = true → d = c) : Phase w u [.disposes c]
  | surrendering {c : Nat} {x : UnitOfWork} (unit : w.units[u]? = some x)
      (root : x.isRoot = true) (gone : w.isDisposed u = true) (yielded : w.hasYielded u = true)
      (running : w.isAt u c Stage.isParting = true) (past : w.isAt u c Stage.isDisposal = false)
      (sole : ∀ d, w.isAt u d Stage.isParting = true → d = c) : Phase w u [.disposes c, .yields]
  | parted {c : Nat} {x : UnitOfWork} (unit : w.units[u]? = some x) (gone : w.isDisposed u = true)
      (yielded : w.hasYielded u = x.isRoot) (idle : ∀ c, w.isAt u c Stage.isParting = false) :
      Phase w u (Parting.full x.isRoot c)

theorem Phase.of_eq (h : w.Phase u done) (step : w.Step l w')
    (gone : w'.isDisposed u = w.isDisposed u) (yielded : w'.hasYielded u = w.hasYielded u)
    (disposal : ∀ c, w'.isAt u c Stage.isDisposal = w.isAt u c Stage.isDisposal)
    (parting : ∀ c, w'.isAt u c Stage.isParting = w.isAt u c Stage.isParting) :
    w'.Phase u done := by
  cases h with
  | whole here holds idle =>
      exact .whole (gone.trans here) (yielded.trans holds) fun c => (parting c).trans (idle c)
  | disposing here holds running sole =>
      exact .disposing (gone.trans here) (yielded.trans holds) ((disposal _).trans running)
        fun d there => sole d ((parting d).symm.trans there)
  | surrendering unit root here given running past sole =>
      obtain ⟨x', unit', -, lineage, -⟩ := step.forth unit
      have root' : x'.isRoot = true := by simpa [UnitOfWork.isRoot, lineage] using root
      exact .surrendering unit' root' (gone.trans here) (yielded.trans given)
        ((parting _).trans running) ((disposal _).trans past)
        fun d there => sole d ((parting d).symm.trans there)
  | @parted c x unit here given idle =>
      obtain ⟨x', unit', -, lineage, -⟩ := step.forth unit
      have same : x'.isRoot = x.isRoot := by simp [UnitOfWork.isRoot, lineage]
      rw [← same]
      exact .parted unit' (gone.trans here) (yielded.trans (given.trans same.symm))
        fun c => (parting c).trans (idle c)

/-- Of a range, at most the one element is picked out that does not fail. -/
theorem filter_range_of_ne {n c : Nat} {p : Nat → Bool} (lt : c < n)
    (other : ∀ d, d ≠ c → p d = false) :
    (List.range n).filter p = if p c then [c] else [] := by
  cases here : p c with
  | false =>
      have none : ∀ d ∈ List.range n, ¬ p d = true := by
        intro d _
        by_cases same : d = c
        · simp [same, here]
        · simp [other d same]
      simpa using none
  | true =>
      have same : (List.range n).filter p = (List.range n).filter (· == c) := by
        refine List.filter_congr fun d _ => ?_
        by_cases eq : d = c
        · simp [eq, here]
        · simp [other d eq, eq]
      rw [same, List.filter_beq, List.count_eq_one_of_mem List.nodup_range (List.mem_range.mpr lt)]
      rfl

/-- A step that is no turn on a unit does nothing of its release. -/
theorem partingsBetween_of_eq (yielded : w'.hasYielded u = w.hasYielded u)
    (disposal : ∀ c, w'.isAt u c Stage.isDisposal = w.isAt u c Stage.isDisposal)
    (parting : ∀ c, w'.isAt u c Stage.isParting = w.isAt u c Stage.isParting) :
    partingsBetween u w w' = [] := by
  simp [partingsBetween, isDisposing_eq, yielded, disposal, parting]

/-- What a turn of an operation on a unit does of its release. -/
inductive Parts (x x' : UnitOfWork) : Stage → Stage → Prop
  | aside {s s' : Stage} (before : s.isParting = false) (after : s'.isParting = false)
      (disposed : x'.disposed = x.disposed) (slot : x'.slot = x.slot) : Parts x x' s s'
  | dispose {s : Stage} (before : s.isParting = false) (first : x.disposed = false)
      (disposed : x'.disposed = true) (slot : x'.slot = x.slot) : Parts x x' s .disposal
  | surrender {inner : Inner} (root : x.isRoot = true) (disposed : x'.disposed = x.disposed)
      (slot : x'.slot = .released) : Parts x x' .disposal (.surrender inner)
  | leave {s' : Stage} (after : s'.isParting = false) (disposed : x'.disposed = x.disposed)
      (slot : x'.slot = if x.isRoot then .released else x.slot) : Parts x x' .disposal s'
  | surrendered {inner : Inner} {s' : Stage} (after : s'.isParting = false)
      (disposed : x'.disposed = x.disposed) (slot : x'.slot = x.slot) :
      Parts x x' (.surrender inner) s'

theorem Judges.disposed_eq {scope : Scope} {result : Response Unit}
    (judges : w.Judges u s scope result f) (x : UnitOfWork) : (f x).disposed = x.disposed := by
  cases judges <;> rfl

theorem Turns.parts (turns : w.Turns c u x thread l s f n actions s') :
    Parts x (f x) s s' := by
  cases turns with
  | finish judges | yield judges =>
      have kept := judges.kept x
      have disposed := judges.disposed_eq x
      refine .aside ?_ rfl ?_ ?_
      · cases judges <;> rfl
      · simpa [UnitOfWork.finish, UnitOfWork.yield] using by split <;> exact disposed
      · simp [kept]
  | dispose first => exact .dispose rfl first rfl rfl
  | surrender root => exact .surrender root rfl rfl
  | leave leaves =>
      have after : (if w.isExternal x.manager then Stage.farewell
          else .done .returned).isParting = false := by
        split <;> rfl
      cases leaves with
      | nested inside => exact .leave after rfl (by simp [inside])
      | keep root | empty root => exact .leave after rfl (by simp [root])
      | surrendered => exact .surrendered after rfl rfl
  | _ => exact .aside rfl rfl rfl rfl

/-- An operation on a unit has taken a turn. -/
structure Took (w w' : World) (u c : Nat) (x x' : UnitOfWork) (s s' : Stage) : Prop where
  unit : w.units[u]? = some x
  unit' : w'.units[u]? = some x'
  isRoot : x'.isRoot = x.isRoot
  here : ∀ p, w.isAt u c p = p s
  here' : ∀ p, w'.isAt u c p = p s'
  other : ∀ {d : Nat}, d ≠ c → ∀ p, w'.isAt u d p = w.isAt u d p
  done : partingsBetween u w w' =
    (if s'.isDisposal && !s.isDisposal then [.disposes c] else []) ++
      (if x'.slot == .released && !x.slot == .released then [.yields] else []) ++
      (if s.isParting && !s'.isParting then [.tells c] else [])

theorem took_evolve (running : w.operations[c]? = some ⟨u, thread, s⟩)
    (unit : w.units[u]? = some x) (turns : w.Turns c u x thread l s f n actions s') :
    Took w (w.evolve c u f n actions s') u c x (f x) s s' := by
  have running' : (w.evolve c u f n actions s').operations[c]? = _ := operations_evolve running
  have unit' : (w.evolve c u f n actions s').units[u]? = _ := units_evolve unit
  have lt := (List.getElem?_eq_some_iff.mp running').1
  have other {d : Nat} (ne : d ≠ c) (p : Stage → Bool) :
      (w.evolve c u f n actions s').isAt u d p = w.isAt u d p := by
    rw [isAt, operations_evolve_ne ne.symm, isAt]
  have picks (b : Bool) (q : Nat → Parting) :
      (if b then [c] else []).map q = if b then [q c] else [] := by
    cases b <;> rfl
  refine ⟨unit, unit', ?_, fun _ => isAt_of running, fun _ => isAt_of running', other, ?_⟩
  · simp [UnitOfWork.isRoot, turns.kept.2.1]
  · simp only [partingsBetween, isDisposing_eq]
    rw [filter_range_of_ne lt fun d ne => by simp [other ne], picks,
      filter_range_of_ne lt fun d ne => by simp [other ne], picks]
    simp only [isAt_of running, isAt_of running', hasYielded_of unit, hasYielded_of unit']

namespace Phase

variable (h : w.Phase u done) (took : Took w w' u c x x' s s')

include h took

/-- A turn that has nothing to do with the release leaves it where it is. -/
theorem aside (step : w.Step l w') (before : s.isParting = false) (after : s'.isParting = false)
    (disposed : x'.disposed = x.disposed) (slot : x'.slot = x.slot) :
    w'.Phase u (done ++ partingsBetween u w w') := by
  have idle {p : Stage → Bool} (late : ∀ s, p s = true → s.isParting = true) {s : Stage}
      (out : s.isParting = false) : p s = false := by
    cases at_ : p s with
    | false => rfl
    | true => exact absurd (late s at_) (by simp [out])
  have same (p : Stage → Bool) (late : ∀ s, p s = true → s.isParting = true) (d : Nat) :
      w'.isAt u d p = w.isAt u d p := by
    by_cases eq : d = c
    · subst eq
      rw [took.here, took.here', idle late before, idle late after]
    · exact took.other eq p
  have disposal (s : Stage) (there : s.isDisposal = true) : s.isParting = true := by
    rw [Stage.eq_disposal there]
    rfl
  have yielded : w'.hasYielded u = w.hasYielded u := by
    rw [hasYielded_of took.unit', hasYielded_of took.unit, slot]
  rw [partingsBetween_of_eq yielded (same _ disposal) (same _ fun _ => id), List.append_nil]
  refine h.of_eq step ?_ yielded (same _ disposal) (same _ fun _ => id)
  rw [isDisposed_of took.unit', isDisposed_of took.unit, disposed]

/-- Nobody parts from a unit that is not disposed. -/
theorem idle_of_first (first : x.disposed = false) (d : Nat) :
    w.isAt u d Stage.isParting = false ∧ done = [] := by
  have gone := isDisposed_of took.unit
  rw [first] at gone
  cases h with
  | whole _ _ idle => exact ⟨idle d, rfl⟩
  | disposing marked | surrendering _ _ marked | parted _ marked => cases gone.symm.trans marked

/-- Whoever has marked the unit disposes of the resources. -/
theorem dispose (before : s.isParting = false) (first : x.disposed = false)
    (there : s' = .disposal) (disposed : x'.disposed = true) (slot : x'.slot = x.slot) :
    w'.Phase u (done ++ partingsBetween u w w') := by
  subst there
  obtain ⟨-, rfl⟩ := h.idle_of_first took first 0
  have early : s.isDisposal = false := by
    cases s <;> first | rfl | cases before
  have now : partingsBetween u w w' = [.disposes c] := by
    rw [took.done, slot, early, before]
    cases x.slot <;> rfl
  have holds : w.hasYielded u = false := by
    cases h with
    | whole _ holds => exact holds
  rw [now]
  refine .disposing ?_ ?_ (took.here' _) fun d parting => ?_
  · rw [isDisposed_of took.unit', disposed]
  · rw [hasYielded_of took.unit', slot, ← hasYielded_of took.unit, holds]
  · by_contra ne
    rw [took.other ne, (h.idle_of_first took first d).1] at parting
    cases parting

/-- Who is disposing of the resources is the only one that parts from the unit, and the handle has
not been given up. -/
theorem of_disposal (there : s = .disposal) : done = [.disposes c] ∧ x.disposed = true ∧
    (x.slot == .released) = false ∧ ∀ d ≠ c, w.isAt u d Stage.isParting = false := by
  subst there
  have parting : w.isAt u c Stage.isParting = true := took.here _
  have disposal : w.isAt u c Stage.isDisposal = true := took.here _
  cases h with
  | whole _ _ idle => cases (idle c).symm.trans parting
  | disposing gone holds running sole =>
      obtain rfl := sole c parting
      refine ⟨rfl, ?_, ?_, fun d ne => ?_⟩
      · rwa [isDisposed_of took.unit] at gone
      · rwa [hasYielded_of took.unit] at holds
      · exact Bool.eq_false_iff.mpr fun there => ne (sole d there)
  | surrendering _ _ _ _ _ past sole =>
      obtain rfl := sole c parting
      cases past.symm.trans disposal
  | parted _ _ _ idle => cases (idle c).symm.trans parting

/-- A root gives up its handle, and ends the transaction. -/
theorem surrender {inner : Inner} (root : x.isRoot = true) (from_ : s = .disposal)
    (to_ : s' = .surrender inner) (disposed : x'.disposed = x.disposed)
    (slot : x'.slot = .released) : w'.Phase u (done ++ partingsBetween u w w') := by
  obtain ⟨rfl, gone, holds, alone⟩ := h.of_disposal took from_
  subst from_ to_
  have now : partingsBetween u w w' = [.yields] := by
    rw [took.done, slot, holds]
    rfl
  rw [now]
  refine .surrendering took.unit' (took.isRoot.trans root) ?_ ?_ (took.here' _) (took.here' _)
    fun d parting => ?_
  · rw [isDisposed_of took.unit', disposed, gone]
  · rw [hasYielded_of took.unit', slot]
    rfl
  · by_contra ne
    rw [took.other ne, alone d ne] at parting
    cases parting

/-- The resources are disposed of, and the manager is told at once. -/
theorem leave (from_ : s = .disposal) (after : s'.isParting = false)
    (disposed : x'.disposed = x.disposed)
    (slot : x'.slot = if x.isRoot then .released else x.slot) :
    w'.Phase u (done ++ partingsBetween u w w') := by
  obtain ⟨rfl, gone, holds, alone⟩ := h.of_disposal took from_
  subst from_
  have early : s'.isDisposal = false := by
    cases s' <;> first | rfl | cases after
  have yields : (x'.slot == .released) = x.isRoot := by
    rw [slot]
    cases x.isRoot with
    | true => rfl
    | false => exact holds
  have now : [Parting.disposes c] ++ partingsBetween u w w' = Parting.full x'.isRoot c := by
    rw [took.done, yields, holds, early, after, took.isRoot]
    cases x.isRoot <;> rfl
  rw [now]
  refine .parted took.unit' ?_ ?_ fun d => ?_
  · rw [isDisposed_of took.unit', disposed, gone]
  · rw [hasYielded_of took.unit', yields, took.isRoot]
  · by_cases eq : d = c
    · rw [eq, took.here', after]
    · rw [took.other eq, alone d eq]

/-- The transaction is ended, and the manager is told. -/
theorem surrendered {inner : Inner} (from_ : s = .surrender inner) (after : s'.isParting = false)
    (disposed : x'.disposed = x.disposed) (slot : x'.slot = x.slot) :
    w'.Phase u (done ++ partingsBetween u w w') := by
  subst from_
  have parting : w.isAt u c Stage.isParting = true := took.here _
  cases h with
  | whole _ _ idle => cases (idle c).symm.trans parting
  | disposing _ _ running sole =>
      obtain rfl := sole c parting
      cases (took.here _).symm.trans running
  | surrendering unit root gone yielded running past sole =>
      obtain rfl := sole c parting
      obtain rfl := Option.some.inj (took.unit.symm.trans unit)
      have early : s'.isDisposal = false := by
        cases s' <;> first | rfl | cases after
      have now : [Parting.disposes c, .yields] ++ partingsBetween u w w' =
          Parting.full x'.isRoot c := by
        rw [took.done, slot, early, after, took.isRoot, root]
        cases x.slot <;> rfl
      rw [now]
      refine .parted took.unit' ?_ ?_ fun d => ?_
      · rw [isDisposed_of took.unit', disposed, ← isDisposed_of took.unit, gone]
      · rw [hasYielded_of took.unit', slot, ← hasYielded_of took.unit, yielded, took.isRoot, root]
      · by_cases eq : d = c
        · rw [eq, took.here', after]
        · rw [took.other eq]
          exact Bool.eq_false_iff.mpr fun there => eq (sole d there)
  | parted _ _ _ idle => cases (idle c).symm.trans parting

omit took in
/-- Every step takes the release of a unit on, and what is done of it is what the phase says. -/
theorem step (step : w.Step l w') : w'.Phase u (done ++ partingsBetween u w w') := by
  rcases takesTurn_or_bypasses w w' l u with ⟨x, x', unit, turn⟩ | bypasses
  · obtain ⟨running, turns, rfl⟩ := turn
    have took := took_evolve running unit turns
    cases turns.parts with
    | aside before after disposed slot => exact h.aside took step before after disposed slot
    | dispose before first disposed slot => exact h.dispose took before first rfl disposed slot
    | surrender root disposed slot => exact h.surrender took root rfl rfl disposed slot
    | leave after disposed slot => exact h.leave took rfl after disposed slot
    | surrendered after disposed slot => exact h.surrendered took rfl after disposed slot
  · have gone : w'.isDisposed u = w.isDisposed u :=
      step.any_eq (fun _ _ _ => rfl) (fun _ _ _ => rfl) (fun _ _ => rfl) bypasses
    have yielded : w'.hasYielded u = w.hasYielded u := by
      refine step.any_eq (fun _ _ _ => rfl) (fun x n pending => ?_) (fun _ _ => rfl) bypasses
      rw [pending]
      rfl
    have disposal : ∀ c, w'.isAt u c Stage.isDisposal = w.isAt u c Stage.isDisposal := by
      refine step.isAt_eq (fun s there => ?_) bypasses
      rw [Stage.eq_disposal there]
      exact ⟨rfl, rfl⟩
    have parting : ∀ c, w'.isAt u c Stage.isParting = w.isAt u c Stage.isParting := by
      refine step.isAt_eq (fun s there => ?_) bypasses
      cases s <;> first | exact ⟨rfl, rfl⟩ | cases there
    rw [partingsBetween_of_eq yielded disposal parting, List.append_nil]
    exact h.of_eq step gone yielded disposal parting

omit took in
/-- A unit is disposed exactly if its capability has been called to dispose of its resources. -/
theorem isDisposed_iff : w.isDisposed u = true ↔ ∃ d, Parting.disposes d ∈ done := by
  cases h with
  | whole here => simp [here]
  | @disposing c gone => simp [gone]
  | @surrendering c _ _ _ gone => simp [gone]
  | @parted c x _ gone =>
      have called : Parting.disposes c ∈ Parting.full x.isRoot c := by simp [Parting.full]
      exact ⟨fun _ => ⟨c, called⟩, fun _ => gone⟩

omit took in
/-- All that is done of a release is a part of the whole, in its order. -/
theorem isPrefix (unit : w.units[u]? = some x) : ∃ c, done <+: Parting.full x.isRoot c := by
  cases h with
  | whole => exact ⟨0, List.nil_prefix⟩
  | @disposing c => exact ⟨c, (List.prefix_append _ _).trans (List.prefix_append _ _)⟩
  | @surrendering c y unit' root =>
      obtain rfl := Option.some.inj (unit.symm.trans unit')
      rw [root]
      exact ⟨c, List.prefix_append _ _⟩
  | @parted c y unit' =>
      obtain rfl := Option.some.inj (unit.symm.trans unit')
      exact ⟨c, List.prefix_rfl⟩

omit took in
/-- A disposed unit that nobody is parting from has been released as a whole. -/
theorem eq_full (unit : w.units[u]? = some x) (gone : w.isDisposed u = true)
    (idle : ∀ c, w.isAt u c Stage.isParting = false) :
    ∃ c, done = Parting.full x.isRoot c ∧ w.hasYielded u = x.isRoot := by
  cases h with
  | whole here => cases gone.symm.trans here
  | @disposing c _ _ running =>
      obtain ⟨thread, s, there, disposal⟩ := isAt_iff.mp running
      have parting := isAt_of (p := Stage.isParting) there
      rw [idle c, Stage.eq_disposal disposal] at parting
      cases parting
  | @surrendering c _ _ _ _ _ running => cases (idle c).symm.trans running
  | @parted c y unit' _ yielded =>
      obtain rfl := Option.some.inj (unit.symm.trans unit')
      exact ⟨c, rfl, yielded⟩

omit took in
theorem chain {rest : List World} (chain : (w :: rest).IsChain Follows) :
    ((w :: rest).getLast (List.cons_ne_nil _ _)).Phase u (done ++ partings u (w :: rest)) := by
  induction rest generalizing w done with
  | nil => simpa [partings] using h
  | cons w' rest ih =>
      obtain ⟨⟨l, step⟩, chain⟩ := List.isChain_cons_cons.mp chain
      rw [List.getLast_cons_cons, partings, ← List.append_assoc]
      exact ih (h.step step) chain

end Phase

section Run

variable {managers : List Manager} {past : List Action} {ws : List World}

/-- What has been done of a release in the course of a run is what its phase says. -/
theorem Course.phase (course : Course managers past ws) (u : Nat) :
    ((initial managers).run past).Phase u (partings u ws) := by
  obtain ⟨front, eq⟩ := course.exists_eq_concat
  obtain ⟨rest, rfl⟩ := course.exists_eq_cons
  have start : (initial managers).Phase u [] :=
    .whole rfl rfl fun c => by simp [isAt, initial]
  have last := start.chain course.isChain
  simpa only [eq, List.getLast_append_singleton, List.nil_append] using last

/-! ## The mark -/

/-- A unit that is disposed stays so. -/
theorem Step.isDisposed (step : w.Step l w') (gone : w.isDisposed u = true) :
    w'.isDisposed u = true := by
  obtain ⟨x, unit, disposed⟩ := exists_of_isDisposed gone
  obtain ⟨x', unit', -⟩ := step.forth unit
  rw [isDisposed_of unit']
  cases step.became unit unit' with
  | kept | founded => exact disposed
  | turned turn =>
      obtain ⟨running, turns, -⟩ := turn
      cases turns.parts with
      | dispose _ _ disposed => exact disposed
      | aside _ _ same | surrender _ same | leave _ same | surrendered _ same =>
          exact same.trans disposed

theorem isDisposed_run (gone : ((initial managers).run past).isDisposed u = true)
    (rest : List Action) : ((initial managers).run (past ++ rest)).isDisposed u = true :=
  run_induction (P := fun w => w.isDisposed u = true) managers rest gone
    fun _ h step => step.isDisposed h

/-- The manager has no say in a drop. -/
theorem isDisposed_permitted (unit : w.units[u]? = some x) (c : Nat) (allowed : Bool) :
    (w.permitted c u true allowed).isDisposed u = true := by
  simp only [permitted, unit, Bool.not_true, Bool.and_false, Bool.false_or]
  split
  next gone => exact (isDisposed_of (w := w.moveTo c _) unit).trans gone
  next => simp [isDisposed, modifyUnit, moveTo, unit]

/-- A drop marks its unit disposed, or waits for the manager. -/
theorem drop_begins (unit : w.units[u]? = some x) (thread : Nat) :
    (w.perform (.release u thread true)).isDisposed u = true ∨
      ∃ c : Nat, (w.perform (.release u thread true)).operations[c]? =
        some ⟨u, thread, .permission true⟩ := by
  simp only [perform, beginRelease, unit]
  split
  next gone => exact .inl ((isDisposed_of (w := w.push _) unit).trans gone)
  next =>
    split
    next allowed _ => exact .inl (isDisposed_permitted (w := w.push _) unit _ allowed)
    next => exact .inr ⟨w.operations.length, List.getElem?_concat_length ..⟩

/-- A drop that waits for the manager goes on to wait, unless its unit is disposed. -/
theorem drop_waits (order : w.Orderly)
    (running : w.operations[c]? = some ⟨u, thread, .permission true⟩) (a : Action) :
    (w.perform a).isDisposed u = true ∨
      (w.perform a).operations[c]? = some ⟨u, thread, .permission true⟩ := by
  have lt := (List.getElem?_eq_some_iff.mp running).1
  by_cases other : w.movedBy a = some c
  · have inner : w.innerOf (.operation c) = none := by simp [innerOf, running, Stage.inner?]
    have still (f : Transaction → Nat → Transaction) : w.onInner (.operation c) f = w := by
      simp only [onInner, inner]
    have taken {b : Activity} (here : b.operation? = some c) : b = .operation c := by
      cases b with
      | operation => rw [Option.some.inj here]
      | call => cases here
    cases a with
    | commit | release => exact absurd (Option.some.inj other) (by omega)
    | turn b =>
        rw [taken other, perform, turn, still]
        exact .inr running
    | rouse b =>
        rw [taken other, perform, rouse, still]
        exact .inr running
    | answer b reply =>
        rw [taken other, perform]
        cases reply with
        | vote v =>
            rw [answer, still]
            exact .inr running
        | allowed yes =>
            obtain ⟨x, unit⟩ := order.seated running rfl
            simp only [answer, running, answerOperation]
            exact .inl (isDisposed_permitted unit c yes)
        | done | response =>
            simp only [answer, inner, running, answerOperation]
            exact .inr trivial
    | _ => cases other
  · exact .inr ((operations_perform other lt).trans running)

/-- In the course of a run, a unit has been dropped. -/
def Dropped (managers : List Manager) (past : List Action) (u : Nat) : Prop :=
  ∃ before thread after x, past = before ++ .release u thread true :: after ∧
    ((initial managers).run before).units[u]? = some x

/-- A unit that has been dropped is disposed, or the drop waits for the manager. -/
theorem Dropped.cases (h : Dropped managers past u) :
    ((initial managers).run past).isDisposed u = true ∨
      ∃ c thread : Nat, ((initial managers).run past).operations[c]? =
        some ⟨u, thread, .permission true⟩ := by
  obtain ⟨before, thread, after, x, rfl, unit⟩ := h
  rw [List.append_cons]
  induction after using List.reverseRecOn with
  | nil =>
      rw [List.append_nil, run_append]
      exact (drop_begins unit thread).imp_right fun ⟨c, running⟩ => ⟨c, thread, running⟩
  | append_singleton after a ih =>
      rw [← List.append_assoc]
      rcases ih with gone | ⟨c, thread', running⟩
      · exact .inl (isDisposed_run gone [a])
      · rw [run_append]
        exact (drop_waits (orderly_run managers _) running a).imp_right
          fun running => ⟨c, thread', running⟩

/-! ## The answer of the manager -/

theorem moveTo_push (w : World) (u thread : Nat) (s s' : Stage) :
    (w.push ⟨u, thread, s⟩).moveTo w.operations.length s' = w.push ⟨u, thread, s'⟩ := by
  simp [push, moveTo, List.modify_eq_take_drop]

/-- A disposal that the manager refuses as it begins changes nothing. -/
theorem perform_release_refused (unit : w.units[u]? = some x) (whole : x.disposed = false)
    (thread : Nat) (refuses : w.permits? x.manager u = some false) :
    w.perform (.release u thread false) = w.push ⟨u, thread, .done .returned⟩ := by
  have answer : (w.push ⟨u, thread, .permission false⟩).permits? x.manager u = some false := refuses
  have there : (w.push ⟨u, thread, .permission false⟩).units[u]? = some x := unit
  simp only [perform, beginRelease, unit, whole, answer, permitted, there, Bool.not_false,
    Bool.and_true, Bool.true_or, if_true, Bool.false_eq_true, if_false]
  exact w.moveTo_push ..

/-- A disposal that the manager permits as it begins, and any drop, marks the unit disposed. -/
theorem perform_release_permitted (unit : w.units[u]? = some x) (whole : x.disposed = false)
    (thread : Nat) {dropping allowed : Bool} (permits : w.permits? x.manager u = some allowed)
    (heeded : (allowed || dropping) = true) : w.perform (.release u thread dropping) =
      (w.modifyUnit u fun x => { x with disposed := true }).push ⟨u, thread, .disposal⟩ := by
  have answer : (w.push ⟨u, thread, .permission dropping⟩).permits? x.manager u = some allowed :=
    permits
  have there : (w.push ⟨u, thread, .permission dropping⟩).units[u]? = some x := unit
  have proceeds : (!allowed && !dropping) = false := by
    rw [← Bool.not_or, heeded]
    rfl
  simp only [perform, beginRelease, unit, whole, answer, permitted, there, proceeds, Bool.or_false,
    Bool.false_eq_true, if_false]
  exact (w.modifyUnit u fun x => { x with disposed := true }).moveTo_push ..

/-- The answer of a manager that was asked: a disposal that is refused returns, and one that is
permitted, or any drop, marks the unit disposed if nobody else has. -/
theorem perform_answer_permission (unit : w.units[u]? = some x) {dropping : Bool}
    (running : w.operations[c]? = some ⟨u, thread, .permission dropping⟩) (allowed : Bool) :
    w.perform (.answer (.operation c) (.allowed allowed)) =
      if (!allowed && !dropping) || x.disposed then w.moveTo c (.done .returned)
      else (w.modifyUnit u fun x => { x with disposed := true }).moveTo c .disposal := by
  simp only [perform, answer, running, answerOperation, permitted, unit]

/-- A unit is released once.

In every course of every run, what is done of the release of a unit is a part of one whole release
by one operation: the capability disposes of the resources, a root gives up its handle, and the
manager is told. Once the unit has been dropped and nobody is at its release any more, the whole has
been done. A unit that is disposed stays so. A disposal that the manager refuses changes nothing but
that it has returned, and as long as the unit is not disposed any later one is again decided by the
manager alone. A drop marks the unit disposed whatever the manager says. -/
theorem released_once (managers : List Manager) (past : List Action) (ws : List World)
    (course : Course managers past ws) (u : Nat) (x : UnitOfWork)
    (unit : ((initial managers).run past).units[u]? = some x) :
    let w := (initial managers).run past
    (∃ c, partings u ws <+: Parting.full x.isRoot c) ∧
    (Dropped managers past u → (∀ c, w.isAt u c Stage.isDeparting = false) →
      ∃ c, partings u ws = Parting.full x.isRoot c) ∧
    (∀ earlier, earlier <+: past → ((initial managers).run earlier).isDisposed u = true →
      x.disposed = true) ∧
    (x.disposed = false → ∀ (thread : Nat) (dropping allowed : Bool),
      w.permits? x.manager u = some allowed → w.perform (.release u thread dropping) =
        if allowed || dropping then
          (w.modifyUnit u fun x => { x with disposed := true }).push ⟨u, thread, .disposal⟩
        else w.push ⟨u, thread, .done .returned⟩) ∧
    (x.disposed = false → ∀ (c thread : Nat) (dropping allowed : Bool),
      w.operations[c]? = some ⟨u, thread, .permission dropping⟩ →
        w.perform (.answer (.operation c) (.allowed allowed)) =
          if allowed || dropping then
            (w.modifyUnit u fun x => { x with disposed := true }).moveTo c .disposal
          else w.moveTo c (.done .returned)) := by
  intro w
  have phase := course.phase u
  refine ⟨phase.isPrefix unit, ?_, ?_, ?_, ?_⟩
  · intro dropped idle
    have gone : w.isDisposed u = true := by
      refine dropped.cases.resolve_right ?_
      rintro ⟨c, thread, running⟩
      cases (idle c).symm.trans (isAt_of running)
    obtain ⟨c, whole, -⟩ := phase.eq_full unit gone fun c =>
      isAt_of_imp (fun _ => Stage.isDeparting_of_isParting) (idle c)
    exact ⟨c, whole⟩
  · rintro earlier ⟨rest, rfl⟩ gone
    rw [← isDisposed_of unit]
    exact isDisposed_run gone rest
  · intro whole thread dropping allowed permits
    cases heeded : allowed || dropping with
    | true => exact perform_release_permitted unit whole thread permits heeded
    | false =>
        obtain ⟨rfl, rfl⟩ := Bool.or_eq_false_iff.mp heeded
        exact perform_release_refused unit whole thread permits
  · intro whole c thread dropping allowed running
    rw [perform_answer_permission unit running, whole, Bool.or_false, ← Bool.not_or]
    cases allowed || dropping <;> rfl

/-- A root is disposed of while its manager refuses, and then dropped on another thread. -/
def refusals : List Action :=
  [.openUnit ⟨"root", "shared", none, 0, 0, .default⟩, .answer (.operation 0) .done,
    .release 0 0 false, .release 0 1 true, .answer (.operation 1) (.allowed false),
    .answer (.operation 2) (.allowed false), .answer (.operation 2) .done,
    .answer (.operation 2) .done]

/-- A root that is dropped against the will of its manager. -/
theorem released_once_refused : ∃ ws, Course [.external] refusals ws ∧
    ((initial [.external]).run refusals).isDisposed 0 = true ∧
      ∃ c, partings 0 ws = [.disposes c, .yields, .tells c] := by
  obtain ⟨ws, course⟩ := exists_course [.external] refusals
  obtain ⟨x, unit, root⟩ : ∃ x, ((initial [.external]).run refusals).units[0]? = some x ∧
      x.isRoot = true := ⟨_, rfl, rfl⟩
  have dropped : Dropped [.external] refusals 0 :=
    ⟨refusals.take 3, 1, refusals.drop 4, _, rfl, rfl⟩
  have idle (c : Nat) :
      ((initial [.external]).run refusals).isAt 0 c Stage.isDeparting = false := by
    rcases c with _ | _ | _ | c
    all_goals rfl
  obtain ⟨c, whole⟩ := (released_once [.external] refusals ws course 0 x unit).2.1 dropped idle
  rw [root] at whole
  exact ⟨ws, course, rfl, c, whole⟩

end Run

end World

end NestedWork
