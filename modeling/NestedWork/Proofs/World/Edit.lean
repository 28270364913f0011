import NestedWork.Proofs.World.Proceed

/-!
# What an action edits

An action of the environment changes units and transactions, begins operations and moves them on,
opens a unit and has it registered, or has a registry let go of one. Only a client that opens a
transaction and a commit that is let through do more.

## Implementation notes

A run of steps does not tell which action it comes from, and a step may open a transaction or
register a unit at any time. What only certain actions do is therefore read off the functions
themselves, which are gone through once here.
-/

namespace NestedWork

/-- The operation that something under way is. -/
def Activity.operation? : Activity → Option Nat
  | .operation c => some c
  | .call _ => none

/-- The action begins a commit of a unit. -/
def World.Action.isCommit : World.Action → Bool
  | .commit _ _ => true
  | _ => false

namespace World

variable {w w₁ w' : World} {a : Action} {asks : Bool} {moved : Option Nat}
  {c d u v m n thread : Nat} {s : Stage} {x : UnitOfWork} {scope : Scope}

/-- An operation that is not at the stage that one has been moved to is another one. -/
theorem operations_moveTo_of_ne {s' : Stage} (other : s ≠ s')
    (running : (w.moveTo c s).operations[d]? = some ⟨u, thread, s'⟩) :
    d ≠ c ∧ w.operations[d]? = some ⟨u, thread, s'⟩ := by
  by_cases same : c = d
  · subst same
    obtain ⟨o, -, eq⟩ : ∃ o, w.operations[c]? = some o ∧ { o with stage := s } =
        (⟨u, thread, s'⟩ : Operation) := by
      simpa [moveTo] using running
    exact absurd (congrArg Operation.stage eq) other
  · exact ⟨Ne.symm same, by simpa [moveTo, same] using running⟩

/-- One thing that is done in the course of an action. No commit gets to the capability by it, none
asks its manager unless that is said, and only the operation that is named is moved on. -/
inductive Edit (asks : Bool) (moved : Option Nat) (w : World) : World → Prop
  | tick (nanos : Nat) : Edit asks moved w { w with now := ⟨w.now.nanos + nanos⟩ }
  | unit (u : Nat) {f : UnitOfWork → UnitOfWork}
      (kept : ∀ x, (f x).lineage = x.lineage ∧ (f x).manager = x.manager) :
      Edit asks moved w (w.modifyUnit u f)
  | transaction (n : Nat) (f : Transaction → Transaction) :
      Edit asks moved w (w.modifyTransaction n f)
  | begin {o : Operation} (asked : o.stage = .admission → asks = true)
      (called : ∀ scope, o.stage ≠ .work scope) : Edit asks moved w (w.push o)
  | stage {c : Nat} {s : Stage} (here : moved = some c) (asked : s ≠ .admission)
      (called : ∀ scope, s ≠ .work scope) : Edit asks moved w (w.moveTo c s)
  | enrol (m : Nat) (x : UnitOfWork) :
      Edit asks moved w (World.register { w with units := w.units ++ [x] } m w.units.length)
  | forget (m u : Nat) : Edit asks moved w (w.forget m u)

/-- All that is done in the course of an action. -/
def Edits (asks : Bool) (moved : Option Nat) : World → World → Prop :=
  Relation.ReflTransGen (Edit asks moved)

namespace Edits

theorem refl : Edits asks moved w w := Relation.ReflTransGen.refl

theorem trans (first : Edits asks moved w w₁) (second : Edits asks moved w₁ w') :
    Edits asks moved w w' :=
  Relation.ReflTransGen.trans first second

theorem unit (w : World) (u : Nat) (f : UnitOfWork → UnitOfWork)
    (kept : ∀ x, (f x).lineage = x.lineage ∧ (f x).manager = x.manager) :
    Edits asks moved w (w.modifyUnit u f) := .single (.unit u kept)

theorem transaction (w : World) (n : Nat) (f : Transaction → Transaction) :
    Edits asks moved w (w.modifyTransaction n f) := .single (.transaction n f)

theorem call (w : World) (n : Nat) (purpose : Purpose) :
    Edits asks moved w (w.call n purpose).1 := transaction w n _

theorem stage (w : World) (c : Nat) {s : Stage} (asked : s ≠ .admission)
    (called : ∀ scope, s ≠ .work scope) : Edits asks (some c) w (w.moveTo c s) :=
  .single (.stage rfl asked called)

/-- What every edit keeps is kept by any number of them. -/
theorem preserve {P : World → Prop} (edits : Edits asks moved w w') (start : P w)
    (edit : ∀ {w w' : World}, P w → Edit asks moved w w' → P w') : P w' := by
  induction edits with
  | refl => exact start
  | tail _ last ih => exact edit ih last

theorem length_transactions (edits : Edits asks moved w w') :
    w'.transactions.length = w.transactions.length := by
  refine edits.preserve (P := fun w' => w'.transactions.length = w.transactions.length) rfl ?_
  intro w₁ w₂ same edit
  cases edit with
  | transaction => simpa [modifyTransaction] using same
  | _ => exact same

/-- The capability of a unit that is at work after some edits was so before. -/
theorem work_back (edits : Edits asks moved w w')
    (running : w'.operations[c]? = some ⟨u, thread, .work scope⟩) :
    w.operations[c]? = some ⟨u, thread, .work scope⟩ := by
  revert running
  refine edits.preserve (P := fun w' => w'.operations[c]? = some ⟨u, thread, .work scope⟩ →
    w.operations[c]? = some ⟨u, thread, .work scope⟩) id ?_
  intro w₁ w₂ before edit running
  cases edit with
  | begin asked called =>
      rcases operations_push running with old | ⟨-, rfl⟩
      · exact before old
      · exact absurd rfl (called scope)
  | stage here asked called => exact before (operations_moveTo_of_ne (called scope) running).2
  | _ => exact before running

/-- An operation that is not moved on stays where it is. -/
theorem operations_eq (edits : Edits asks moved w w') (other : moved ≠ some c)
    (old : c < w.operations.length) : w'.operations[c]? = w.operations[c]? := by
  refine (edits.preserve (P := fun w' => c < w'.operations.length ∧
    w'.operations[c]? = w.operations[c]?) ⟨old, rfl⟩ ?_).2
  rintro w₁ w₂ ⟨lt, same⟩ edit
  cases edit with
  | begin => exact ⟨by simp [push]; omega, (List.getElem?_append_left lt).trans same⟩
  | @stage d s here =>
      have ne : d ≠ c := by
        rintro rfl
        exact other here
      exact ⟨by simpa [moveTo] using lt, by simpa [moveTo, ne] using same⟩
  | _ => exact ⟨lt, same⟩

/-- A manager that is asked after some edits was asked before. -/
theorem admission_back (edits : Edits false moved w w')
    (running : w'.operations[c]? = some ⟨u, thread, .admission⟩) :
    w.operations[c]? = some ⟨u, thread, .admission⟩ := by
  revert running
  refine edits.preserve (P := fun w' => w'.operations[c]? = some ⟨u, thread, .admission⟩ →
    w.operations[c]? = some ⟨u, thread, .admission⟩) id ?_
  intro w₁ w₂ before edit running
  cases edit with
  | begin asked called =>
      rcases operations_push running with old | ⟨-, rfl⟩
      · exact before old
      · cases asked rfl
  | stage here asked called => exact before (operations_moveTo_of_ne asked running).2
  | _ => exact before running

end Edits

/-! ## What is never undone -/

/-- No unit leaves its tree or its manager, no manager begins or ceases to decide outside this
world, and registries take up no units but new ones. -/
structure Extends (w w' : World) : Prop where
  unit : ∀ {u : Nat} {x : UnitOfWork}, w.units[u]? = some x →
    ∃ x', w'.units[u]? = some x' ∧ x'.lineage = x.lineage ∧ x'.manager = x.manager
  isExternal : ∀ m, w'.isExternal m = w.isExternal m
  keeps : ∀ {m v : Nat}, v < w.units.length → w'.keeps m v = true → w.keeps m v = true

namespace Extends

theorem of_eq (units : w'.units = w.units) (managers : w'.managers = w.managers) :
    w.Extends w' where
  unit := fun unit => ⟨_, units ▸ unit, rfl, rfl⟩
  isExternal := fun m => by rw [World.isExternal, managers, World.isExternal]
  keeps := fun _ kept => by rwa [World.keeps, managers] at kept

theorem refl (w : World) : w.Extends w := .of_eq rfl rfl

theorem lt (h : w.Extends w') (old : v < w.units.length) : v < w'.units.length := by
  obtain ⟨x', unit', -⟩ := h.unit (List.getElem?_eq_getElem old)
  exact (List.getElem?_eq_some_iff.mp unit').1

theorem trans (first : w.Extends w₁) (second : w₁.Extends w') : w.Extends w' where
  unit := by
    intro u x unit
    obtain ⟨x₁, unit₁, lineage₁, manager₁⟩ := first.unit unit
    obtain ⟨x', unit', lineage, manager⟩ := second.unit unit₁
    exact ⟨x', unit', lineage.trans lineage₁, manager.trans manager₁⟩
  isExternal := fun m => (second.isExternal m).trans (first.isExternal m)
  keeps := fun old kept => first.keeps old (second.keeps (first.lt old) kept)

theorem modifyUnit (w : World) (u : Nat) {f : UnitOfWork → UnitOfWork}
    (kept : ∀ x, (f x).lineage = x.lineage ∧ (f x).manager = x.manager) :
    w.Extends (w.modifyUnit u f) where
  unit := by
    intro v x unit
    by_cases same : u = v
    · exact ⟨f x, by simp [World.modifyUnit, same, unit], kept x⟩
    · exact ⟨x, by simp [World.modifyUnit, same, unit], rfl, rfl⟩
  isExternal := fun _ => rfl
  keeps := fun _ kept => kept

theorem isExternal_modify (w : World) (m : Nat) {f : Manager → Manager}
    (kept : ∀ k, (f k == .external) = (k == .external)) (n : Nat) :
    World.isExternal { w with managers := w.managers.modify m f } n = w.isExternal n := by
  simp only [World.isExternal, List.getElem?_modify]
  cases w.managers[n]? with
  | none => rfl
  | some k => by_cases same : m = n <;> simp [same, kept]

theorem forget (w : World) (m u : Nat) : w.Extends (w.forget m u) where
  unit := fun unit => ⟨_, unit, rfl, rfl⟩
  isExternal := isExternal_modify w m fun k => by cases k <;> rfl
  keeps := by
    intro n v _ kept
    simp only [World.keeps, World.forget] at kept ⊢
    by_cases same : m = n
    · subst same
      cases there : w.managers[m]? with
      | none => simp [there] at kept
      | some manager => cases manager <;> simp_all
    · simpa [same] using kept

theorem enrol (w : World) (m : Nat) (x : UnitOfWork) :
    w.Extends (World.register { w with units := w.units ++ [x] } m w.units.length) where
  unit := by
    intro v y unit
    refine ⟨y, ?_, rfl, rfl⟩
    exact (List.getElem?_append_left (List.getElem?_eq_some_iff.mp unit).1).trans unit
  isExternal := isExternal_modify { w with units := w.units ++ [x] } m fun k => by cases k <;> rfl
  keeps := by
    intro n v old kept
    have ne : v ≠ w.units.length := Nat.ne_of_lt old
    simp only [World.keeps, register] at kept ⊢
    by_cases same : m = n
    · subst same
      cases there : w.managers[m]? with
      | none => simp [there] at kept
      | some manager =>
          cases manager with
          | registry live =>
              by_cases known : w.units.length ∈ live <;> simpa [there, known, ne] using kept
          | _ => simp [there] at kept
    · simpa [same] using kept

/-- A unit that there is keeps its ancestors. -/
theorem hasAncestor (h : w.Extends w') (old : v < w.units.length) (u : Nat) :
    w'.hasAncestor v u = w.hasAncestor v u := by
  have unit := List.getElem?_eq_getElem old
  obtain ⟨x', unit', lineage, -⟩ := h.unit unit
  simp [World.hasAncestor, unit, unit', lineage]

end Extends

theorem Edits.extends (edits : Edits asks moved w w') : w.Extends w' := by
  refine edits.preserve (P := fun w' => w.Extends w') (.refl w) ?_
  intro w₁ w₂ before edit
  refine before.trans ?_
  cases edit with
  | unit u kept => exact .modifyUnit w₁ u kept
  | forget m u => exact .forget w₁ m u
  | enrol m x => exact .enrol w₁ m x
  | _ => exact .of_eq rfl rfl

/-! ## Commits -/

/-- What an operation does as it proceeds makes for edits. -/
theorem Proceeds.edits (proceeds : Proceeds moved w w') : Edits asks moved w w' := by
  induction proceeds with
  | refl => exact .refl
  | tail _ last ih =>
      refine ih.trans (.single ?_)
      cases last with
      | unit u kept => exact .unit u fun x => ⟨(kept x).lineage, (kept x).manager⟩
      | transaction n f => exact .transaction n f
      | stage here late =>
          exact .stage here (Stage.ne_admission_of_isLate late) (Stage.ne_work_of_isLate late)

/-- The world after a commit of a unit has entered a transaction. -/
def setToWork (w : World) (c u : Nat) (x : UnitOfWork) (n thread : Nat) : World :=
  (w.enterScope u x n thread).1.moveTo c (.work (w.enterScope u x n thread).2)

/-- A commit is let through: it enters the transaction of its tree, which it opens if need be. -/
inductive LetThrough (w : World) (c u thread : Nat) : World → Prop
  | enter {x y : UnitOfWork} {n : Nat} (unit : w.units[u]? = some x)
      (root : w.units[w.rootOf u]? = some y) (live : y.slot = .live n) :
      LetThrough w c u thread (w.setToWork c u x n thread)
  | found {x y : UnitOfWork} (unit : w.units[u]? = some x)
      (root : w.units[w.rootOf u]? = some y) (pending : y.slot = .pending) :
      LetThrough w c u thread
        ((w.foundAt (w.rootOf u) y).setToWork c u x w.transactions.length thread)

/-- A commit whose manager has answered returns, or is let through. -/
theorem admitted_cases (unit : w.units[u]? = some x) (c thread : Nat) (allowed : Bool) :
    (∃ result, w.admitted c u thread allowed = w.finishCommit c u result) ∨
      allowed = true ∧ w.LetThrough c u thread (w.admitted c u thread allowed) := by
  simp only [admitted, unit]
  cases allowed with
  | false => exact .inl ⟨_, rfl⟩
  | true =>
      simp only [Bool.not_true, Bool.false_eq_true, if_false]
      unfold enterTransaction
      cases root : w.units[w.rootOf u]? with
      | none => exact .inl ⟨_, rfl⟩
      | some y =>
          cases slot : y.slot with
          | released =>
              simp only [slot]
              exact .inl ⟨_, rfl⟩
          | live n =>
              simp only [slot]
              exact .inr ⟨trivial, .enter unit root slot⟩
          | pending =>
              simp only [slot]
              exact .inr ⟨trivial, .found unit root slot⟩

theorem operations_enterScope (w : World) (u : Nat) (x : UnitOfWork) (n thread : Nat) :
    (w.enterScope u x n thread).1.operations = w.operations := by
  by_cases away : thread ≠ x.thread
  · simp only [enterScope, if_pos away]
    rfl
  · simp only [enterScope, if_neg away]
    rfl

/-- A commit that is let through sets its capability to work, and no other operation moves. -/
theorem LetThrough.operations_eq (through : w.LetThrough c u thread w') :
    ∃ scope, w'.operations = (w.moveTo c (.work scope)).operations := by
  have entered (w : World) (x : UnitOfWork) (n : Nat) : ∃ scope,
      (w.setToWork c u x n thread).operations = (w.moveTo c (.work scope)).operations := by
    refine ⟨(w.enterScope u x n thread).2, ?_⟩
    rw [setToWork, moveTo, operations_enterScope, moveTo]
  cases through with
  | enter => exact entered w _ _
  | found => exact entered _ _ _

/-- A commit whose manager has answered asks it no longer. -/
theorem admission_admitted {thread' : Nat} (unit : w.units[u]? = some x) (allowed : Bool)
    (running : (w.admitted c u thread allowed).operations[d]? = some ⟨v, thread', .admission⟩) :
    d ≠ c ∧ w.operations[d]? = some ⟨v, thread', .admission⟩ := by
  rcases admitted_cases unit c thread allowed with ⟨result, eq⟩ | ⟨-, through⟩
  · rw [eq] at running
    exact operations_moveTo_of_ne (by simp) running
  · obtain ⟨scope, moved⟩ := through.operations_eq
    rw [moved] at running
    exact operations_moveTo_of_ne (by simp) running

/-! ## Releases -/

theorem edits_bidFarewell (w : World) (c u : Nat) : Edits asks (some c) w (w.bidFarewell c u) := by
  unfold bidFarewell
  split
  next => exact .refl
  next x _ =>
    split
    · exact .stage w c (by simp) (by simp)
    · exact Edits.trans (.single (.forget x.manager u)) (.stage _ c (by simp) (by simp))

theorem edits_resourcesDisposed (w : World) (c u : Nat) :
    Edits asks (some c) w (w.resourcesDisposed c u) := by
  unfold resourcesDisposed
  split
  next => exact .refl
  next =>
    split
    next => exact edits_bidFarewell ..
    next =>
      split
      next n _ =>
        apply (Edits.unit w u (fun x => { x with slot := .released, handles := x.handles - 1 })
          fun _ => ⟨rfl, rfl⟩).trans
        dsimp only
        split
        next =>
          apply (Edits.call _ n (.abort .ownerReleased)).trans
          split
          · exact edits_bidFarewell ..
          · exact .stage _ c (by simp) (by simp)
        next => exact edits_bidFarewell ..
      next =>
        exact (Edits.unit w u (fun x => { x with slot := .released }) fun _ => ⟨rfl, rfl⟩).trans
          (edits_bidFarewell ..)

theorem edits_permitted (w : World) (c u : Nat) (dropping allowed : Bool) :
    Edits asks (some c) w (w.permitted c u dropping allowed) := by
  unfold permitted
  split
  next => exact .refl
  next =>
    split
    · exact .stage w c (by simp) (by simp)
    · exact (Edits.unit w u (fun x => { x with disposed := true }) fun _ => ⟨rfl, rfl⟩).trans
        (.stage _ c (by simp) (by simp))

theorem edits_beginRelease (w : World) (u thread : Nat) (dropping : Bool) :
    Edits asks (some w.operations.length) w (w.beginRelease u thread dropping) := by
  unfold beginRelease
  split
  next => exact .refl
  next =>
    split
    next => exact .single (.begin (by simp) (by simp))
    next =>
      have begun : Edits asks (some w.operations.length) w
          (w.push ⟨u, thread, .permission dropping⟩) :=
        .single (.begin (by simp) (by simp))
      dsimp only
      split
      · exact begun.trans (edits_permitted ..)
      · exact begun

/-! ## Openings -/

theorem register_of_isExternal (external : w.isExternal m = true) (u : Nat) :
    w.register m u = w := by
  have there : w.managers[m]? = some .external := by simpa [isExternal] using external
  have managers : (w.register m u).managers = w.managers := by
    apply List.ext_getElem?
    intro n
    by_cases eq : m = n
    · subst eq
      simp [register, there]
    · simp [register, eq]
  calc w.register m u = { w with managers := (w.register m u).managers } := rfl
    _ = w := by rw [managers]

theorem edits_openUnit (o : Opening) (opened : w.openUnit o = .ok w') : Edits asks moved w w' := by
  unfold openUnit at opened
  split at opened
  next => cases opened
  next options lowered _ =>
    obtain rfl := Except.ok.inj opened
    have length := (steps_lowerUnits lowered o.options.timeout w o.parent).2.2.1
    apply (proceeds_lowerUnits lowered o.options.timeout w).edits.trans
    generalize lowered.foldl (fun w v => w.lowerUnit v o.options.timeout) w = w₁ at *
    have enrolled : Edits asks moved w₁ _ := .single (.enrol o.manager (w.openedUnit o options))
    rw [← length]
    split
    next external =>
      rw [register_of_isExternal external] at enrolled
      exact enrolled.trans (.single (.begin (by simp) (by simp)))
    next => exact enrolled.trans (.single (.begin (by simp) (by simp)))

/-! ## Answers and turns -/

theorem edits_resume (w : World) (c : Nat) : Edits asks (some c) w (w.resume c) := by
  rcases proceeds_resume w c with proceeds | ⟨u, -, -, -, eq⟩
  · exact proceeds.edits
  · rw [eq]
    exact edits_bidFarewell ..

theorem edits_onInner (w : World) (a : Activity) (f : Transaction → Nat → Transaction) :
    Edits asks a.operation? w (w.onInner a f) := by
  unfold onInner
  split
  next => exact .refl
  next i _ =>
    apply (Edits.transaction w i.transaction fun t => (f t i.call).settle w.now i.call).trans
    cases a with
    | call => exact .refl
    | operation c => exact edits_resume _ c

/-- An answer takes an operation on, and lets a commit through if that is what the manager says. -/
theorem edits_answerOperation (w : World) (c : Nat) (o : Operation) (reply : Reply) :
    Edits asks (some c) w (w.answerOperation c o reply) ∨
      o.stage = .admission ∧ reply = .allowed true ∧
        w.LetThrough c o.unit o.thread (w.answerOperation c o reply) := by
  unfold answerOperation
  split
  next yes asked =>
    cases unit : w.units[o.unit]? with
    | none =>
        left
        simp only [admitted, unit]
        exact .refl
    | some x =>
        rcases admitted_cases unit c o.thread yes with ⟨result, eq⟩ | ⟨rfl, through⟩
        · rw [eq]
          exact .inl (proceeds_finishCommit ..).edits
        · exact .inr ⟨asked, rfl, through⟩
  · exact .inl (edits_permitted ..)
  · exact .inl (proceeds_workSucceeded ..).edits
  · exact .inl (proceeds_workFailed ..).edits
  · exact .inl (edits_resourcesDisposed ..)
  · exact .inl (.stage w c (by simp) (by simp))
  · exact .inl (.stage w c (by simp) (by simp))
  · exact .inl (.stage w c (by simp) (by simp))
  · exact .inl (.refl)

end World

end NestedWork
