import NestedWork.Proofs.World.Disposal

/-!
# The word to the manager

The manager of a unit is told that the unit is disposed by the operation that parts from it, as it
does so and at no other time. One that decides outside this world hears it from the operation, which
has come to tell it. A registry has let go of the unit.

## Implementation notes

That an operation has come to tell a manager outside shows at the step at which it does. A registry
lets go of a unit in a step of its own, and by itself that step does not show why it is taken. What
becomes of registries is therefore said of whole actions.

What an action is to the registries is gone through once here, function by function. What a registry
keeps follows from it, and so does that nobody marks a unit disposed without parting from it.
-/

namespace NestedWork

/-- What a registry knows of a unit: who manages it and whether it is disposed. -/
def UnitOfWork.enrolment (x : UnitOfWork) : Nat × Bool := (x.manager, x.disposed)

theorem UnitOfWork.SameSeat.enrolment_eq {x x' : UnitOfWork} (h : x.SameSeat x') :
    x'.enrolment = x.enrolment :=
  Prod.ext h.manager h.disposed

/-- An operation that is over with its unit parts from none. -/
theorem Stage.isParting_of_isLate {s : Stage} (late : s.isLate = true) : s.isParting = false := by
  cases s <;> first | rfl | cases late

namespace World

variable {w w₁ w' : World} {a : Action} {l : Label} {moved : Option Nat} {c d m n u v thread : Nat}
  {x : UnitOfWork} {s s' : Stage} {f : UnitOfWork → UnitOfWork} {actions : List Transaction.Action}

/-! ## Managers outside this world -/

/-- The turn by which an operation parts from its unit takes it to the word to the manager. -/
theorem Turns.eq_of_parted (turns : w.Turns c u x thread l s f n actions s')
    (parting : s.isParting = true) (parted : s'.isParting = false) :
    s' = if w.isExternal x.manager then .farewell else .done .returned := by
  cases turns with
  | leave => rfl
  | surrender => cases parted
  | finish judges | yield judges => cases judges <;> cases parting
  | _ => cases parting

/-- An operation comes to the word to the manager by parting from its unit. -/
theorem Turns.isParting_of_farewell (turns : w.Turns c u x thread l s f n actions s')
    (here : s' = .farewell) : s.isParting = true := by
  cases turns with
  | leave leaves => cases leaves <;> rfl
  | _ => cases here

theorem need_eq_disposed : w.need (.operation c) = .manager .disposed u ↔
    ∃ thread, w.operations[c]? = some ⟨u, thread, .farewell⟩ := by
  have only (s : Stage) : s.question? = some .disposed ↔ s = .farewell := by
    cases s <;> simp [Stage.question?]
  simp [need_eq_manager, only]

theorem Step.mem_partingsBetween_tells (step : w.Step l w') :
    .tells c ∈ partingsBetween u w w' ↔
      w.isAt u c Stage.isParting = true ∧ w'.isAt u c Stage.isParting = false := by
  have begun (parting : w.isAt u c Stage.isParting = true) : c < w'.operations.length := by
    obtain ⟨thread, s, running, -⟩ := isAt_iff.mp parting
    obtain ⟨s', running', -⟩ := step.advances running
    exact (List.getElem?_eq_some_iff.mp running').1
  simp only [partingsBetween, List.mem_append, List.mem_map, List.mem_filter, List.mem_range]
  grind

/-- A manager that decides outside this world is to hear that a unit is disposed from the step on at
which it is told. -/
theorem Step.tells_iff_need (step : w.Step l w') (unit : w.units[u]? = some x)
    (external : w.isExternal x.manager = true) : .tells c ∈ partingsBetween u w w' ↔
      w.need (.operation c) ≠ .manager .disposed u ∧
        w'.need (.operation c) = .manager .disposed u := by
  rw [step.mem_partingsBetween_tells]
  constructor
  · rintro ⟨parting, parted⟩
    obtain ⟨thread, s, running, here⟩ := isAt_iff.mp parting
    obtain ⟨s', running', advances⟩ := step.advances running
    rw [isAt_of running'] at parted
    refine ⟨fun before => ?_, need_eq_disposed.mpr ⟨thread, ?_⟩⟩
    · obtain ⟨thread', there⟩ := need_eq_disposed.mp before
      cases running.symm.trans there
      cases here
    · cases advances with
      | stay => cases parted.symm.trans here
      | answered waits => rcases waits with rfl | rfl | rfl <;> cases here
      | turn unit' turns =>
          obtain rfl := Option.some.inj (unit.symm.trans unit')
          rw [running', turns.eq_of_parted here parted, if_pos external]
  · rintro ⟨before, after⟩
    obtain ⟨thread, running'⟩ := need_eq_disposed.mp after
    refine ⟨?_, isAt_of running'⟩
    rcases step.operation_back running' with ⟨s, running, advances⟩ | ⟨-, opening⟩
    · generalize eq : Stage.farewell = s' at advances
      cases advances with
      | stay => exact absurd (need_eq_disposed.mpr ⟨thread, eq ▸ running⟩) before
      | answered => cases eq
      | turn _ turns => exact (isAt_of running).trans (turns.isParting_of_farewell eq.symm)
    · cases opening

/-! ## What a registry goes by -/

/-- Two worlds agree in the managers, in what these know of the units, and in which operations part
from their units. -/
structure SameRoll (w w' : World) : Prop where
  managers : w'.managers = w.managers
  units : ∀ v : Nat,
    (w'.units[v]?).map UnitOfWork.enrolment = (w.units[v]?).map UnitOfWork.enrolment
  parting : ∀ v c, w'.isAt v c Stage.isParting = w.isAt v c Stage.isParting

/-- No unit is parted from by an operation. -/
def Idle (w : World) (c : Nat) : Prop := ∀ v, w.isAt v c Stage.isParting = false

theorem idle_of (running : w.operations[c]? = some ⟨u, thread, s⟩)
    (away : s.isParting = false) : w.Idle c := by
  intro v
  simp [isAt, running, away]

namespace SameRoll

theorem refl (w : World) : w.SameRoll w := ⟨rfl, fun _ => rfl, fun _ _ => rfl⟩

theorem trans (first : w.SameRoll w₁) (second : w₁.SameRoll w') : w.SameRoll w' where
  managers := second.managers.trans first.managers
  units := fun v => (second.units v).trans (first.units v)
  parting := fun v c => (second.parting v c).trans (first.parting v c)

theorem idle (h : w.SameRoll w') (idle : w.Idle c) : w'.Idle c :=
  fun v => (h.parting v c).trans (idle v)

theorem of_units (managers : w'.managers = w.managers) (units : w'.units = w.units)
    (operations : w'.operations = w.operations) : w.SameRoll w' where
  managers
  units := fun v => by rw [units]
  parting := fun v c => by rw [isAt, operations, isAt]

theorem modifyUnit (w : World) (u : Nat) (kept : ∀ x, UnitOfWork.SameSeat x (f x)) :
    w.SameRoll (w.modifyUnit u f) where
  managers := rfl
  units := by
    intro v
    simp only [World.modifyUnit, List.getElem?_modify]
    cases w.units[v]? with
    | none => rfl
    | some x => by_cases same : u = v <;> simp [same, (kept x).enrolment_eq]
  parting := fun _ _ => rfl

theorem modifyTransaction (w : World) (n : Nat) (f : Transaction → Transaction) :
    w.SameRoll (w.modifyTransaction n f) := of_units rfl rfl rfl

theorem call (w : World) (n : Nat) (purpose : Purpose) : w.SameRoll (w.call n purpose).1 :=
  .modifyTransaction w n _

theorem push (w : World) (u thread : Nat) (away : s.isParting = false) :
    w.SameRoll (w.push ⟨u, thread, s⟩) where
  managers := rfl
  units := fun _ => rfl
  parting := fun v c => isAt_push away v c

/-- An operation that parts from its unit may go on to do so, and one that does not may go on not
to. -/
theorem moveTo_of (same : ∀ o, w.operations[c]? = some o → s.isParting = o.stage.isParting) :
    w.SameRoll (w.moveTo c s) where
  managers := rfl
  units := fun _ => rfl
  parting := by
    intro v d
    by_cases here : c = d
    · subst here
      simp only [isAt, World.moveTo, List.getElem?_modify]
      cases running : w.operations[c]? with
      | none => rfl
      | some o => simp [same o running]
    · exact isAt_moveTo_ne here

theorem moveTo (idle : w.Idle c) (away : s.isParting = false) : w.SameRoll (w.moveTo c s) := by
  refine moveTo_of fun o running => ?_
  have here := idle o.unit
  rw [isAt_of running] at here
  rw [away, here]

/-- An operation that parts from a unit may take its time. -/
theorem stays (parting : w.isAt u c Stage.isParting = true) (late : s.isParting = true) :
    w.SameRoll (w.moveTo c s) := by
  obtain ⟨thread, s₀, running, here⟩ := isAt_iff.mp parting
  refine moveTo_of fun o running' => ?_
  obtain rfl := Option.some.inj (running.symm.trans running')
  rw [late, here]

theorem exists_unit (h : w.SameRoll w') (unit : w.units[v]? = some x) :
    ∃ x', w'.units[v]? = some x' ∧ x'.enrolment = x.enrolment := by
  have here := h.units v
  rw [unit, Option.map_some] at here
  exact Option.map_eq_some_iff.mp here

theorem symm (h : w.SameRoll w') : w'.SameRoll w where
  managers := h.managers.symm
  units := fun v => (h.units v).symm
  parting := fun v c => (h.parting v c).symm

end SameRoll

/-- What an operation does as it proceeds is nothing to a registry. -/
theorem Proceeds.sameRoll (proceeds : Proceeds moved w w')
    (idle : ∀ c, moved = some c → w.Idle c) : w.SameRoll w' := by
  induction proceeds with
  | refl => exact .refl w
  | tail _ last ih =>
      apply ih.trans
      cases last with
      | unit u kept => exact .modifyUnit _ u kept
      | transaction n f => exact .modifyTransaction _ n f
      | stage here late => exact .moveTo (ih.idle (idle _ here)) (Stage.isParting_of_isLate late)

theorem Proceeds.sameRoll_of_none (proceeds : Proceeds none w w') : w.SameRoll w' :=
  proceeds.sameRoll (by simp)

theorem Proceeds.sameRoll_of_idle (proceeds : Proceeds (some c) w w') (idle : w.Idle c) :
    w.SameRoll w' := by
  refine proceeds.sameRoll fun d here => ?_
  rwa [← Option.some.inj here]

theorem LetThrough.sameRoll (through : w.LetThrough c u thread w') (idle : w.Idle c) :
    w.SameRoll w' := by
  have entered {w : World} (x : UnitOfWork) (n : Nat) (idle : w.Idle c) :
      w.SameRoll (w.setToWork c u x n thread) := by
    have scope : w.SameRoll (w.enterScope u x n thread).1 :=
      Proceeds.sameRoll_of_none (proceeds_enterScope ..)
    exact scope.trans (.moveTo (scope.idle idle) rfl)
  cases through with
  | enter => exact entered _ _ idle
  | @found _ y =>
      have opened : w.SameRoll (w.openTransaction y.transactionId y.options) :=
        .of_units rfl rfl rfl
      have found : w.SameRoll (w.foundAt (w.rootOf u) y) :=
        opened.trans (.modifyUnit _ _ fun _ => ⟨rfl, rfl, rfl⟩)
      exact found.trans (entered _ _ (found.idle idle))

theorem sameRoll_admitted (idle : w.Idle c) (u thread : Nat) (allowed : Bool) :
    w.SameRoll (w.admitted c u thread allowed) := by
  cases unit : w.units[u]? with
  | none =>
      simp only [admitted, unit]
      exact .refl w
  | some x =>
      rcases admitted_cases unit c thread allowed with ⟨result, eq⟩ | ⟨-, through⟩
      · rw [eq]
        exact (proceeds_finishCommit ..).sameRoll_of_idle idle
      · exact through.sameRoll idle

theorem sameRoll_beginCommit (w : World) (u thread : Nat) :
    w.SameRoll (w.beginCommit u thread) := by
  unfold beginCommit
  split
  next => exact .refl w
  next x unit =>
    split
    next => exact .push w u thread rfl
    next =>
      have begun : w.SameRoll ((w.modifyUnit u fun x => { x with committing := true }).push
          ⟨u, thread, .admission⟩) :=
        (SameRoll.modifyUnit (f := fun x => { x with committing := true }) w u
          fun _ => ⟨rfl, rfl, rfl⟩).trans (.push _ u thread rfl)
      dsimp only
      split
      · exact begun.trans
          (sameRoll_admitted (idle_of (List.getElem?_concat_length ..) rfl) u thread _)
      · exact begun

/-! ## What an action is to a registry -/

/-- What an action is to the registries: nothing, a unit that is opened, one that is marked
disposed, or the word that one is disposed. -/
inductive Rolls (w : World) : World → Prop
  | same {w' : World} (same : w.SameRoll w') : Rolls w w'
  | enrols {w₁ w' : World} {x : UnitOfWork} (before : w.SameRoll w₁) (whole : x.disposed = false)
      (after : SameRoll (World.register { w₁ with units := w₁.units ++ [x] } x.manager
        w₁.units.length) w') : Rolls w w'
  | marks {w₁ : World} {c u thread : Nat} {dropping : Bool} {x : UnitOfWork}
      (before : w.SameRoll w₁) (unit : w₁.units[u]? = some x) (whole : x.disposed = false)
      (running : w₁.operations[c]? = some ⟨u, thread, .permission dropping⟩) :
      Rolls w ((w₁.modifyUnit u fun x => { x with disposed := true }).moveTo c .disposal)
  | departs {w₁ : World} {c u : Nat} (before : w.SameRoll w₁)
      (parting : w.isAt u c Stage.isParting = true) : Rolls w (w₁.bidFarewell c u)

theorem SameRoll.rolls (before : w.SameRoll w₁) (rolls : w₁.Rolls w') : w.Rolls w' := by
  cases rolls with
  | same same => exact .same (before.trans same)
  | enrols first whole after => exact .enrols (before.trans first) whole after
  | marks first unit whole running => exact .marks (before.trans first) unit whole running
  | @departs _ c u first parting =>
      exact .departs (before.trans first) ((before.parting u c).symm.trans parting)

/-- The resources of a unit are gone, and its root gives up the handle on the transaction. -/
theorem rolls_resourcesDisposed (parting : w.isAt u c Stage.isParting = true) :
    w.Rolls (w.resourcesDisposed c u) := by
  unfold resourcesDisposed
  split
  next => exact .same (.refl w)
  next x unit =>
    split
    next => exact .departs (.refl w) parting
    next =>
      split
      next n live =>
        have yielded : w.SameRoll (w.modifyUnit u fun x => { x with
            slot := .released, handles := x.handles - 1 }) :=
          .modifyUnit w u fun _ => ⟨rfl, rfl, rfl⟩
        dsimp only
        split
        next =>
          have ended := yielded.trans (.call _ n (.abort .ownerReleased))
          split
          next => exact .departs ended parting
          next => exact .same (ended.trans (.stays ((ended.parting u c).trans parting) rfl))
        next => exact .departs yielded parting
      next =>
        exact .departs (.modifyUnit (f := fun x => { x with slot := .released }) w u
          fun _ => ⟨rfl, rfl, rfl⟩) parting

/-- The manager has answered: the unit is marked disposed, or nothing happens to it. -/
theorem rolls_permitted {dropping allowed : Bool}
    (running : w.operations[c]? = some ⟨u, thread, .permission dropping⟩) :
    w.Rolls (w.permitted c u dropping allowed) := by
  unfold permitted
  split
  next => exact .same (.refl w)
  next x unit =>
    split
    next => exact .same (.moveTo (idle_of running rfl) rfl)
    next proceeds =>
      have whole : x.disposed = false := by
        simp only [Bool.or_eq_true, not_or, Bool.not_eq_true] at proceeds
        exact proceeds.2
      exact .marks (.refl w) unit whole running

theorem rolls_beginRelease (w : World) (u thread : Nat) (dropping : Bool) :
    w.Rolls (w.beginRelease u thread dropping) := by
  unfold beginRelease
  split
  next => exact .same (.refl w)
  next x unit =>
    split
    next => exact .same (.push w u thread rfl)
    next =>
      have begun : w.SameRoll (w.push ⟨u, thread, .permission dropping⟩) := .push w u thread rfl
      dsimp only
      split
      · exact begun.rolls (rolls_permitted (List.getElem?_concat_length ..))
      · exact .same begun

theorem rolls_openUnit {o : Opening} (opened : w.openUnit o = .ok w') : w.Rolls w' := by
  unfold openUnit at opened
  split at opened
  next => cases opened
  next options lowered _ =>
    obtain rfl := Except.ok.inj opened
    have lower : w.SameRoll (lowered.foldl (fun w v => w.lowerUnit v o.options.timeout) w) :=
      Proceeds.sameRoll_of_none (proceeds_lowerUnits ..)
    have length := (steps_lowerUnits lowered o.options.timeout w o.parent).2.2.1
    generalize lowered.foldl (fun w v => w.lowerUnit v o.options.timeout) w = w₁ at *
    rw [← length]
    split
    next external =>
      have unknown := register_of_isExternal (w := { w₁ with
        units := w₁.units ++ [w.openedUnit o options] }) external w₁.units.length
      refine .enrols (x := w.openedUnit o options) lower rfl ?_
      rw [show (w.openedUnit o options).manager = o.manager from rfl, unknown]
      exact .push _ _ _ rfl
    next => exact .enrols (x := w.openedUnit o options) lower rfl (.push _ _ _ rfl)

/-- An operation goes on from a call. -/
theorem rolls_resume (w : World) (c : Nat) : w.Rolls (w.resume c) := by
  by_cases idle : w.Idle c
  · rcases proceeds_resume w c with proceeds | ⟨u, thread, inner, running, -⟩
    · exact .same (proceeds.sameRoll_of_idle idle)
    · have here := idle u
      rw [isAt_of running] at here
      cases here
  · obtain ⟨u, parting⟩ : ∃ u, w.isAt u c Stage.isParting = true := by
      simpa [Idle] using idle
    obtain ⟨thread, s, running, late⟩ := isAt_iff.mp parting
    cases s with
    | disposal =>
        simp only [resume, running]
        exact .same (.refl w)
    | surrender inner =>
        simp only [resume, running]
        split
        · exact .departs (.refl w) parting
        · exact .same (.refl w)
    | _ => cases late

theorem rolls_onInner (w : World) (a : Activity) (f : Transaction → Nat → Transaction) :
    w.Rolls (w.onInner a f) := by
  unfold onInner
  split
  next => exact .same (.refl w)
  next i _ =>
    have moved := SameRoll.modifyTransaction w i.transaction
      fun t => (f t i.call).settle w.now i.call
    cases a with
    | call => exact .same moved
    | operation c => exact moved.rolls (rolls_resume _ c)

theorem rolls_answerOperation {o : Operation} (running : w.operations[c]? = some o)
    (reply : Reply) : w.Rolls (w.answerOperation c o reply) := by
  obtain ⟨u, thread, s⟩ := o
  have idle (away : s.isParting = false) : w.Idle c := idle_of running away
  unfold answerOperation
  split
  next yes asked =>
    subst asked
    exact .same (sameRoll_admitted (idle rfl) u thread yes)
  next dropping yes asked =>
    subst asked
    exact rolls_permitted running
  next scope working =>
    subst working
    exact .same ((proceeds_workSucceeded ..).sameRoll_of_idle (idle rfl))
  next scope e working =>
    subst working
    exact .same ((proceeds_workFailed ..).sameRoll_of_idle (idle rfl))
  next disposes =>
    subst disposes
    exact rolls_resourcesDisposed (isAt_of running)
  next waits =>
    subst waits
    exact .same (.moveTo (idle rfl) rfl)
  next waits =>
    subst waits
    exact .same (.moveTo (idle rfl) rfl)
  next waits =>
    subst waits
    exact .same (.moveTo (idle rfl) rfl)
  next => exact .same (.refl w)

theorem rolls_answer (w : World) (a : Activity) (reply : Reply) : w.Rolls (w.answer a reply) := by
  unfold answer
  split
  next v => exact rolls_onInner w a fun t i => t.vote i v
  next =>
    split
    · exact rolls_onInner w _ fun t i => t.acknowledge i
    · split
      next running => exact rolls_answerOperation running _
      next => exact .same (.refl w)
    · exact .same (.refl w)
  next =>
    split
    · split
      next running => exact rolls_answerOperation running _
      next => exact .same (.refl w)
    · exact .same (.refl w)

/-- Whatever is done, it is one of four things to the registries. -/
theorem rolls_perform (w : World) (a : Action) : w.Rolls (w.perform a) := by
  cases a with
  | openUnit o =>
      rw [perform]
      cases opened : w.openUnit o with
      | error => exact .same (.refl w)
      | ok w' => exact rolls_openUnit opened
  | commit u thread => exact .same (w.sameRoll_beginCommit u thread)
  | release u thread dropping => exact w.rolls_beginRelease u thread dropping
  | rollback u thread => exact .same (.push w u thread rfl)
  | openTransaction localId options => exact .same (.of_units rfl rfl rfl)
  | enlist n participant => exact .same (.modifyTransaction w n _)
  | issue n mode => exact .same (.modifyTransaction w n _)
  | call n purpose => exact .same (.call w n purpose)
  | answer a reply => exact w.rolls_answer a reply
  | turn a => exact w.rolls_onInner a fun t _ => t
  | rouse a => exact w.rolls_onInner a fun t i => t.rouse i
  | tick nanos => exact .same (.of_units rfl rfl rfl)

/-! ## What an action tells a manager -/

/-- Between two worlds, an operation informs the manager of a unit that the unit is disposed. One
that decides outside this world is to hear it from the operation. A registry has let go of the unit,
and the operation has returned. -/
def Informs (w w' : World) (c u : Nat) (x : UnitOfWork) : Prop :=
  if w.isExternal x.manager then
    w'.need (.operation c) = .manager .disposed u ∧ w'.managers = w.managers
  else
    w'.need (.operation c) = .nothing ∧ w'.managers = (w.forget x.manager u).managers

theorem isAt_bidFarewell_ne {p : Stage → Bool} (ne : c ≠ d) :
    (w.bidFarewell c v).isAt u d p = w.isAt u d p := by
  unfold bidFarewell
  split
  · rfl
  · split
    · exact isAt_moveTo_ne ne
    · exact isAt_moveTo_ne (w := w.forget _ _) ne

theorem SameRoll.isDisposed_eq (h : w.SameRoll w') (u : Nat) :
    w'.isDisposed u = w.isDisposed u := by
  have marked (w : World) :
      w.isDisposed u = ((w.units[u]?).map UnitOfWork.enrolment).any Prod.snd := by
    simp only [isDisposed, Option.any_map]
    rfl
  rw [marked, marked, h.units]

theorem units_bidFarewell (w : World) (c v : Nat) : (w.bidFarewell c v).units = w.units := by
  unfold bidFarewell
  split
  · rfl
  · split <;> rfl

theorem keeps_of_managers (same : w'.managers = w.managers) (m u : Nat) :
    w'.keeps m u = w.keeps m u := by
  rw [keeps, same, keeps]

/-- A registry that takes up a unit keeps the others. -/
theorem keeps_register (kept : w.keeps m u = true) : (w.register n v).keeps m u = true := by
  simp only [keeps, register, List.getElem?_modify] at kept ⊢
  cases there : w.managers[m]? with
  | none => simp [there] at kept
  | some manager => cases manager <;> by_cases same : n = m <;> grind

/-- A registry that lets go of a unit keeps the others. -/
theorem keeps_forget_ne (ne : v ≠ u) : (w.forget n v).keeps m u = w.keeps m u := by
  simp only [keeps, forget, List.getElem?_modify]
  cases there : w.managers[m]? with
  | none => rfl
  | some manager =>
      by_cases same : n = m <;> cases manager <;> simp [same, Ne.symm ne]

namespace Rolls

variable (rolls : w.Rolls w')

include rolls

/-- An action by which an operation parts from a unit is the word to the manager of the unit. -/
theorem exists_bidFarewell (parting : w.isAt u c Stage.isParting = true)
    (parted : w'.isAt u c Stage.isParting = false) :
    ∃ w₁, w.SameRoll w₁ ∧ w' = w₁.bidFarewell c u := by
  have still {w₁ : World} (before : w.SameRoll w₁)
      (same : w'.isAt u c Stage.isParting = w₁.isAt u c Stage.isParting) : False := by
    rw [same, before.parting, parting] at parted
    cases parted
  cases rolls with
  | same same => exact (still (.refl w) (same.parting u c)).elim
  | enrols before _ after => exact (still before (after.parting u c)).elim
  | @marks w₁ d v thread dropping x before unit whole running =>
      by_cases here : d = c
      · subst here
        obtain ⟨thread', s, running', late⟩ := isAt_iff.mp ((before.parting u d).trans parting)
        cases running.symm.trans running'
        cases late
      · exact (still before (isAt_moveTo_ne (w := w₁.modifyUnit v _) here)).elim
  | @departs w₁ d v before leaving =>
      by_cases here : d = c
      · subst here
        obtain ⟨thread, s, running, -⟩ := isAt_iff.mp parting
        obtain ⟨thread', s', running', -⟩ := isAt_iff.mp leaving
        cases running.symm.trans running'
        exact ⟨w₁, before, rfl⟩
      · exact (still before (isAt_bidFarewell_ne here)).elim

/-- Whoever marks a unit disposed goes on to part from it. -/
theorem exists_parting (whole : w.isDisposed u = false) (gone : w'.isDisposed u = true) :
    ∃ c, w'.isAt u c Stage.isParting = true := by
  have still {w₁ : World} (before : w.SameRoll w₁) (same : w'.isDisposed u = w₁.isDisposed u) :
      False := by
    rw [same, before.isDisposed_eq, whole] at gone
    cases gone
  cases rolls with
  | same same => exact (still (.refl w) (same.isDisposed_eq u)).elim
  | @enrols w₁ _ x before new after =>
      refine (still before ((after.isDisposed_eq u).trans ?_)).elim
      rcases Nat.lt_trichotomy u w₁.units.length with lt | rfl | gt
      · simp [isDisposed, register, List.getElem?_append_left lt]
      · simp [isDisposed, register, new]
      · have beyond : (w₁.units ++ [x])[u]? = none := List.getElem?_eq_none (by simp; omega)
        simp [isDisposed, register, beyond, List.getElem?_eq_none (Nat.le_of_lt gt)]
  | @marks w₁ c v thread dropping x before unit _ running =>
      by_cases here : v = u
      · subst here
        exact ⟨c, by simp [isAt, moveTo, modifyUnit, running, Stage.isParting]⟩
      · refine (still before ?_).elim
        simp [isDisposed, moveTo, modifyUnit, here]
  | @departs w₁ c v before =>
      refine (still before ?_).elim
      simp only [isDisposed, units_bidFarewell]

/-- A registry lets go of a unit only as an operation parts from the unit. -/
theorem exists_parted (kept : w.keeps m u = true) (forgotten : w'.keeps m u = false) :
    ∃ c, w.isAt u c Stage.isParting = true ∧ w'.isAt u c Stage.isParting = false := by
  have kept_of {w₁ : World} (before : w.SameRoll w₁) : w₁.keeps m u = true :=
    (keeps_of_managers before.managers m u).trans kept
  cases rolls with
  | same same => cases (kept_of same).symm.trans forgotten
  | @enrols w₁ _ x before _ after =>
      have there := kept_of before
      have still : w'.keeps m u = true := (keeps_of_managers after.managers m u).trans
        (keeps_register (w := { w₁ with units := w₁.units ++ [x] }) there)
      cases still.symm.trans forgotten
  | marks before => cases (kept_of before).symm.trans forgotten
  | @departs w₁ c v before parting =>
      obtain ⟨thread, s, running, -⟩ := isAt_iff.mp ((before.parting v c).trans parting)
      unfold bidFarewell at forgotten
      split at forgotten
      next => cases (kept_of before).symm.trans forgotten
      next x unit =>
        split at forgotten
        next => cases (kept_of before).symm.trans forgotten
        next inside =>
          by_cases here : v = u
          · subst here
            refine ⟨c, parting, ?_⟩
            simp [bidFarewell, unit, inside, isAt, moveTo, forget, running, Stage.isParting]
          · have still : (w₁.forget x.manager v).keeps m u = true :=
              (keeps_forget_ne here).trans (kept_of before)
            cases still.symm.trans forgotten

end Rolls

/-- The action by which an operation parts from a unit informs the manager of the unit. -/
theorem informs_perform (unit : w.units[u]? = some x)
    (parting : w.isAt u c Stage.isParting = true)
    (parted : (w.perform a).isAt u c Stage.isParting = false) : w.Informs (w.perform a) c u x := by
  obtain ⟨w₁, same, eq⟩ := (w.rolls_perform a).exists_bidFarewell parting parted
  obtain ⟨x₁, unit₁, enrolment⟩ := same.exists_unit unit
  obtain ⟨manager, -⟩ := Prod.mk.inj enrolment
  obtain ⟨thread, s, running, -⟩ := isAt_iff.mp ((same.parting u c).trans parting)
  have external : w₁.isExternal x₁.manager = w.isExternal x.manager := by
    rw [isExternal, same.managers, manager, ← isExternal]
  rw [eq]
  simp only [Informs, bidFarewell, unit₁, external]
  split
  · exact ⟨need_eq_disposed.mpr ⟨thread, by simp [moveTo, running]⟩, same.managers⟩
  · constructor
    · simp [need, moveTo, forget, running, needOfOperation]
    · simp [moveTo, forget, same.managers, manager]

/-- An operation that has informed the manager parts from the unit no more. -/
theorem Informs.parted (informs : w.Informs w' c u x) : w'.isAt u c Stage.isParting = false := by
  refine Bool.eq_false_iff.mpr fun here => ?_
  obtain ⟨thread, s, running, late⟩ := isAt_iff.mp here
  unfold Informs at informs
  split at informs
  · obtain ⟨thread', there⟩ := need_eq_disposed.mp informs.1
    cases running.symm.trans there
    cases late
  · have idle := informs.1
    cases s with
    | disposal => simp [need, running, needOfOperation] at idle
    | surrender i => cases need : w'.needOfCall i <;> simp_all [World.need, needOfOperation]
    | _ => cases late

/-! ## What is told in the course of a run -/

section Run

variable {managers : List Manager} {past : List Action} {ws : List World} {done : List Parting}

/-- A registry lets go of a unit only when it is informed. -/
theorem exists_informs_of_forgotten (kept : ((initial managers).run past).keeps m u = true)
    (forgotten : ((initial managers).run (past ++ [a])).keeps m u = false) :
    ∃ c x, ((initial managers).run past).units[u]? = some x ∧
      ((initial managers).run past).isAt u c Stage.isParting = true ∧
      ((initial managers).run past).Informs ((initial managers).run (past ++ [a])) c u x := by
  rw [run_append] at forgotten ⊢
  obtain ⟨c, parting, parted⟩ := (rolls_perform _ a).exists_parted kept forgotten
  obtain ⟨thread, s, running, late⟩ := isAt_iff.mp parting
  have busy : s.isAside = false := by
    cases s <;> first | rfl | cases late
  obtain ⟨x, unit⟩ := (orderly_run managers past).seated running busy
  exact ⟨c, x, unit, parting, informs_perform unit parting parted⟩

/-- Whoever parts from a unit has begun to release it. -/
theorem Phase.disposes_mem (h : w.Phase u done) (parting : w.isAt u c Stage.isParting = true) :
    .disposes c ∈ done := by
  cases h with
  | whole _ _ idle | parted _ _ _ idle => cases (idle c).symm.trans parting
  | disposing _ _ _ sole | surrendering _ _ _ _ _ _ sole => simp [sole c parting]

/-- Whoever has begun to release a unit parts from it until it has told the manager. -/
theorem Phase.tells_mem (h : w.Phase u done) (begun : .disposes c ∈ done)
    (parted : w.isAt u c Stage.isParting = false) : .tells c ∈ done := by
  cases h with
  | whole => cases begun
  | @disposing d _ _ running =>
      obtain rfl : c = d := by simpa using begun
      obtain ⟨thread, s, there, here⟩ := isAt_iff.mp running
      rw [isAt_of there, Stage.eq_disposal here] at parted
      cases parted
  | @surrendering d _ _ _ _ _ running =>
      obtain rfl : c = d := by simpa using begun
      cases parted.symm.trans running
  | @parted d x =>
      obtain rfl : c = d := by simpa [Parting.full] using begun
      simp [Parting.full]

/-- Once the manager has been told, nobody parts from the unit, and whoever has begun to release it
has told the manager. -/
theorem Phase.of_tells (h : w.Phase u done) (told : .tells c ∈ done) :
    w.isDisposed u = true ∧ (∀ d, w.isAt u d Stage.isParting = false) ∧
      ∀ d, .disposes d ∈ done → d = c := by
  cases h with
  | whole => cases told
  | disposing | surrendering => simp at told
  | @parted d x _ gone _ idle =>
      obtain rfl : c = d := by simpa [Parting.full] using told
      exact ⟨gone, idle, fun e begun => by simpa [Parting.full] using begun⟩

/-- The manager is told exactly when it is said to be.

In every course of every run, an operation tells the manager that a unit is disposed if and only if
an action of the run takes it from the release of the unit to the word to the manager. From then on
one that decides outside this world is to hear it from the operation, or a registry has let go of
the unit. -/
theorem Course.tells_iff (course : Course managers past ws) (u c : Nat) :
    .tells c ∈ partings u ws ↔ ∃ earlier a x, earlier ++ [a] <+: past ∧
      ((initial managers).run earlier).units[u]? = some x ∧
      ((initial managers).run earlier).isAt u c Stage.isParting = true ∧
      ((initial managers).run earlier).Informs ((initial managers).run (earlier ++ [a])) c u x := by
  induction course with
  | start => simp [partings]
  | @perform past a ws more before steps arrives ih =>
      have phase := before.phase u
      have phase' := (before.perform steps arrives).phase u
      have sub : partings u ws ⊆ partings u (ws ++ more) := by
        obtain ⟨front, rfl⟩ := before.exists_eq_concat
        rw [List.append_assoc, List.singleton_append, partings_append u front _ more]
        exact List.subset_append_left ..
      have last : (initial managers).run (past ++ [a]) = ((initial managers).run past).perform a :=
        run_append ..
      constructor
      · intro told
        obtain ⟨gone, idle, sole⟩ := phase'.of_tells told
        by_cases already : .tells c ∈ partings u ws
        · obtain ⟨earlier, b, x, inside, rest⟩ := ih.mp already
          exact ⟨earlier, b, x, inside.trans (List.prefix_append ..), rest⟩
        · rw [last] at gone idle
          -- One action does not both mark the unit and part from it, so the mark is an earlier one.
          have marked : ((initial managers).run past).isDisposed u = true := by
            by_contra whole
            obtain ⟨d, parting⟩ := (rolls_perform _ a).exists_parting
              (Bool.eq_false_iff.mpr whole) gone
            cases (idle d).symm.trans parting
          have parting : ((initial managers).run past).isAt u c Stage.isParting = true := by
            obtain ⟨d, begun⟩ := phase.isDisposed_iff.mp marked
            obtain rfl := sole d (sub begun)
            by_contra away
            exact already (phase.tells_mem begun (Bool.eq_false_iff.mpr away))
          obtain ⟨x, unit, -⟩ := exists_of_isDisposed marked
          refine ⟨past, a, x, List.prefix_rfl, unit, parting, ?_⟩
          rw [last]
          exact informs_perform unit parting (idle c)
      · rintro ⟨earlier, b, x, inside, unit, parting, informs⟩
        rcases List.prefix_concat_iff.mp inside with same | inside
        · obtain ⟨rfl, only⟩ := List.append_inj' same rfl
          obtain rfl := List.singleton_inj.mp only
          exact phase'.tells_mem (sub (phase.disposes_mem parting)) informs.parted
        · exact sub (ih.mpr ⟨earlier, b, x, inside, unit, parting, informs⟩)

end Run

end World

end NestedWork
