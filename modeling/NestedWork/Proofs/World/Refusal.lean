import NestedWork.Proofs.World.Disposal

/-!
# Refused commits

A commit of a unit is refused for the first of these reasons that there is: the unit is disposed,
another commit of it is running, it has committed, it has aborted, its manager says no, the root has
given up the transaction. A commit that is refused leaves nothing behind.

## Implementation notes

The first four are decided as the commit begins, and the last two once the manager has answered. In
between the manager may do anything. What is said of a refusal is therefore said twice, of the
action that begins the commit and of the answer, each time in the world that this action finds.

That another commit is running is read off the operations. The mark that the unit bears says the
same, since every commit that returns takes the mark away.
-/

namespace NestedWork

namespace Stage

/-- A commit that has been let in: the manager has been asked. -/
def isEntered : Stage → Bool
  | done (.commit (.ok _)) => true
  | s => s.isRunning

theorem isEntered_of_isRunning {s : Stage} (running : s.isRunning = true) :
    s.isEntered = true := by
  cases s <;> first | rfl | cases running

end Stage

/-- What a unit is does not depend on the commits that run on it. -/
theorem UnitOfWork.of_finish_eq {x x' : UnitOfWork} (same : x'.finish = x.finish) :
    x'.id = x.id ∧ x'.lineage = x.lineage ∧ x'.status = x.status ∧ x'.disposed = x.disposed := by
  have view {α : Type} (p : UnitOfWork → α) (kept : ∀ y, p y.finish = p y) : p x' = p x := by
    rw [← kept x', same, kept x]
  exact ⟨view id fun _ => rfl, view lineage fun _ => rfl, view status fun _ => rfl,
    view disposed fun _ => rfl⟩

namespace World

variable {w w₁ w' : World} {a : Action} {l : Label} {c d u v n thread : Nat} {x x' : UnitOfWork}
  {s s' : Stage} {f : UnitOfWork → UnitOfWork} {actions : List Transaction.Action} {yes : Bool}
  {managers : List Manager} {past : List Action} {rest ws : List World}

/-! ## The mark of a commit -/

/-- A commit of a unit is running. -/
def isCommitting (w : World) (u : Nat) : Bool :=
  w.operations.any fun o => o.unit == u && o.stage.isRunning

theorem isCommitting_iff : w.isCommitting u = true ↔ ∃ c, w.isAt u c Stage.isRunning = true := by
  simp only [isCommitting, List.any_eq_true]
  constructor
  · rintro ⟨o, mem, here⟩
    obtain ⟨c, lt, rfl⟩ := List.mem_iff_getElem.mp mem
    exact ⟨c, by simpa [isAt, List.getElem?_eq_getElem lt] using here⟩
  · rintro ⟨c, here⟩
    obtain ⟨thread, s, running, there⟩ := isAt_iff.mp here
    exact ⟨_, List.mem_of_getElem? running, by simp [there]⟩

theorem isCommitting_eq_false : w.isCommitting u = false ↔
    ∀ (c thread : Nat) (s : Stage), w.operations[c]? = some ⟨u, thread, s⟩ →
      s.isRunning = false := by
  rw [← Bool.not_eq_true, isCommitting_iff]
  constructor
  · intro none c thread s running
    refine Bool.eq_false_iff.mpr fun busy => none ⟨c, ?_⟩
    rw [isAt_of running, busy]
  · rintro idle ⟨c, here⟩
    obtain ⟨thread, s, running, busy⟩ := isAt_iff.mp here
    rw [idle c thread s running] at busy
    cases busy

/-- Only a commit that is running leaves its mark on a unit. -/
def Gated (w : World) : Prop :=
  ∀ {u : Nat} {x : UnitOfWork}, w.units[u]? = some x → x.committing = true →
    w.isCommitting u = true

/-- No turn puts the mark of a commit on a unit. -/
theorem Turns.marked (turns : w.Turns c u x thread l s f n actions s')
    (marked : (f x).committing = true) : x.committing = true := by
  cases turns with
  | refuse | orphan | succeed | finish | yielded => cases marked
  | yield judges => simpa [judges.kept x] using marked
  | leave leaves => cases leaves <;> exact marked
  | _ => exact marked

/-- The turn by which a commit returns takes the mark off its unit. -/
theorem Turns.unmarked (turns : w.Turns c u x thread l s f n actions s')
    (busy : s.isRunning = true) (idle : s'.isRunning = false) : (f x).committing = false := by
  cases turns with
  | refuse | orphan | succeed | finish | yielded => rfl
  | decline | dispose | surrender => cases busy
  | leave leaves => cases leaves <;> cases busy
  | _ => cases idle

/-- A unit bears the mark of a commit after a step only if it bore it before, or if a commit has
just been begun on it. -/
theorem Step.marked (step : w.Step l w') (unit' : w'.units[u]? = some x')
    (marked : x'.committing = true) :
    (∃ x, w.units[u]? = some x ∧ x.committing = true) ∨
      ∃ thread, w'.operations[w.operations.length]? = some ⟨u, thread, .admission⟩ := by
  have still (same : w.Still w') : ∃ x, w.units[u]? = some x ∧ x.committing = true := by
    obtain ⟨x, unit, alike⟩ := same.back unit'
    exact ⟨x, unit, alike.committing.symm.trans marked⟩
  cases step with
  | lower => exact .inl (still (w.still_lower _ _))
  | lowerLive => exact .inl (still (w.still_lowerLive _ _ _ _))
  | openUnit =>
      rcases back_openedUnit unit' with unit | ⟨-, rfl⟩
      · exact .inl ⟨x', unit, marked⟩
      · cases marked
  | @accept v y unit allowed thread =>
      by_cases same : u = v
      · subst same
        exact .inr ⟨thread, List.getElem?_concat_length ..⟩
      · exact .inl ⟨x', ((update_accept unit thread).units same).symm.trans unit', marked⟩
  | found =>
      obtain ⟨x, unit, ⟨-, -, same⟩, -⟩ := back_foundAt unit'
      exact .inl ⟨x, unit, same.symm.trans marked⟩
  | @turn l c v thread n y s s' f actions running unit turns =>
      by_cases same : v = u
      · subst same
        obtain rfl := Option.some.inj (unit'.symm.trans (units_evolve unit))
        exact .inl ⟨y, unit, turns.marked marked⟩
      · exact .inl ⟨x', (units_evolve_ne same).symm.trans unit', marked⟩
  | _ => exact .inl ⟨x', unit', marked⟩

theorem Gated.step (h : w.Gated) (step : w.Step l w') : w'.Gated := by
  intro u x' unit' marked
  rw [isCommitting_iff]
  rcases step.marked unit' marked with ⟨x, unit, before⟩ | ⟨thread, begun⟩
  · obtain ⟨c, here⟩ := isCommitting_iff.mp (h unit before)
    obtain ⟨thread, s, running, busy⟩ := isAt_iff.mp here
    obtain ⟨s', running', advances⟩ := step.advances running
    refine ⟨c, (isAt_of running').trans ?_⟩
    cases advances with
    | stay => exact busy
    | answered waits => rcases waits with rfl | rfl | rfl <;> cases busy
    | @turn y _ _ f n actions unit₁ turns after =>
        -- The commit would have taken the mark away if it had returned.
        by_contra ended
        subst after
        obtain rfl := Option.some.inj (unit'.symm.trans (units_evolve unit₁))
        rw [turns.unmarked busy (Bool.not_eq_true _ ▸ ended)] at marked
        cases marked
  · exact ⟨_, (isAt_of begun).trans rfl⟩

theorem gated_run (managers : List Manager) (past : List Action) :
    ((initial managers).run past).Gated ∧ ((initial managers).run past).Busy := by
  have start : (initial managers).Orderly ∧ (initial managers).Gated ∧ (initial managers).Busy := by
    refine ⟨orderly_initial managers, ?_, ?_⟩ <;> intro u x unit <;> cases unit
  have all := @run_induction (fun w => w.Orderly ∧ w.Gated ∧ w.Busy) managers [] past start
    fun _ h step => ⟨h.1.step step, Gated.step h.2.1 step, Busy.step h.2.2 step⟩
  exact all.2

/-- The breach of contract that a commit of a unit would be: the unit is disposed, another commit of
it is running, or it has committed or aborted before. -/
def breach? (w : World) (u : Nat) (x : UnitOfWork) : Option Violation :=
  if x.disposed then some (.disposed x.id)
  else if w.isCommitting u then some (.committing x.id)
  else if x.status = .committed then some (.alreadyCommitted x.id)
  else if x.status = .aborted then some (.alreadyAborted x.id)
  else none

/-- What a commit finds on its unit is the breach of contract that it would be. -/
theorem commitViolation?_eq (order : w.Orderly) (gated : w.Gated) (busy : w.Busy)
    (unit : w.units[u]? = some x) : commitViolation? x = w.breach? u x := by
  have mark : x.committing = w.isCommitting u := by
    rw [Bool.eq_iff_iff]
    constructor
    · exact gated unit
    · intro committing
      obtain ⟨c, here⟩ := isCommitting_iff.mp committing
      obtain ⟨thread, s, running, there⟩ := isAt_iff.mp here
      exact (order.shown running unit there).1
  have active (status : x.status = .active) : w.isCommitting u = true := by
    obtain ⟨c, thread, scope, running⟩ := busy unit status
    exact isCommitting_iff.mpr ⟨c, isAt_of running⟩
  unfold commitViolation? breach?
  rw [mark]
  cases status : x.status with
  | active => simp [active status]
  | _ => simp

/-! ## What is left of a commit that was refused -/

/-- A commit of a unit comes to a stage and leaves no trace: no transaction, no manager and no other
operation is touched, and of the units only whether a commit of them is running and where that one
works. -/
structure Passes (w w' : World) (c u thread : Nat) (s : Stage) : Prop where
  here : w'.operations[c]? = some ⟨u, thread, s⟩
  others : ∀ d ≠ c, w'.operations[d]? = w.operations[d]?
  units : w'.units.map UnitOfWork.finish = w.units.map UnitOfWork.finish
  transactions : w'.transactions = w.transactions
  managers : w'.managers = w.managers

namespace Passes

theorem trans (first : w.Passes w₁ c u thread s) (second : w₁.Passes w' c u thread s') :
    w.Passes w' c u thread s' where
  here := second.here
  others := fun d ne => (second.others d ne).trans (first.others d ne)
  units := second.units.trans first.units
  transactions := second.transactions.trans first.transactions
  managers := second.managers.trans first.managers

theorem exists_unit (h : w.Passes w' c u thread s) (unit' : w'.units[v]? = some x') :
    ∃ x, w.units[v]? = some x ∧ x'.finish = x.finish := by
  have same := congrArg (·[v]?) h.units
  simp only [List.getElem?_map, unit', Option.map_some] at same
  obtain ⟨x, unit, eq⟩ := Option.map_eq_some_iff.mp same.symm
  exact ⟨x, unit, eq.symm⟩

/-- What a unit holds does not depend on the commits that run on it. -/
theorem any_eq (h : w.Passes w' c u thread s) {p : UnitOfWork → Bool}
    (kept : ∀ x, p x.finish = p x) (v : Nat) : (w'.units[v]?).any p = (w.units[v]?).any p := by
  have view (units : List UnitOfWork) :
      (units[v]?).any p = ((units.map UnitOfWork.finish)[v]?).any p := by
    cases eq : units[v]? <;> simp [eq, kept]
  rw [view, view w.units, h.units]

/-- Nobody's capability is called by a commit that comes to another stage. -/
theorem callsBetween_eq_nil (h : w.Passes w' c u thread s) (quiet : ∀ scope, s ≠ .work scope)
    (v : Nat) : callsBetween v w w' = [] := by
  refine List.eq_nil_iff_forall_not_mem.mpr fun d call => ?_
  obtain ⟨work, idle⟩ := mem_callsBetween.mp call
  obtain ⟨thread', scope, running⟩ := isAtWork_iff.mp work
  by_cases same : d = c
  · subst same
    cases running.symm.trans h.here
    exact quiet scope rfl
  · rw [h.others d same] at running
    rw [isAtWork_iff.mpr ⟨thread', scope, running⟩] at idle
    cases idle

end Passes

theorem map_finish_modifyUnit (w : World) (u : Nat) (kept : ∀ x, (f x).finish = x.finish) :
    (w.modifyUnit u f).units.map UnitOfWork.finish = w.units.map UnitOfWork.finish := by
  apply List.ext_getElem?
  intro v
  simp only [modifyUnit, List.getElem?_map, List.getElem?_modify]
  cases w.units[v]? with
  | none => rfl
  | some x => by_cases same : u = v <;> simp [same, kept]

/-- A commit that is let in is asked for, and bears its mark. -/
theorem passes_accept (w : World) (u thread : Nat) :
    w.Passes ((w.modifyUnit u fun x => { x with committing := true }).push ⟨u, thread, .admission⟩)
      w.operations.length u thread .admission where
  here := List.getElem?_concat_length ..
  others := by
    intro d ne
    change (w.operations ++ [_])[d]? = _
    rcases Nat.lt_or_ge d w.operations.length with lt | ge
    · exact List.getElem?_append_left lt
    · rw [List.getElem?_eq_none ge, List.getElem?_eq_none (by simp; omega)]
  units := w.map_finish_modifyUnit u fun _ => rfl
  transactions := rfl
  managers := rfl

/-- A commit that returns at once leaves no trace. -/
theorem passes_finishCommit (running : w.operations[c]? = some ⟨u, thread, s⟩)
    (result : Response Unit) :
    w.Passes (w.finishCommit c u result) c u thread (.done (.commit (.ok result))) where
  here := by simp [finishCommit, moveTo, modifyUnit, running]
  others := fun d ne => by simp [finishCommit, moveTo, modifyUnit, ne.symm]
  units := w.map_finish_modifyUnit u fun _ => rfl
  transactions := rfl
  managers := rfl

/-! ## The judgement of a commit that was let in -/

/-- The failure with which a commit returns once the manager has answered: the manager says no, or
the root has given up the transaction. -/
def failure? (w : World) (u : Nat) (x : UnitOfWork) (yes : Bool) : Option Failure :=
  if !yes then some (.notCommittable x.id)
  else if w.hasYielded (w.rootOf u) then some (.noTransaction x.id)
  else none

theorem admitted_of_failure? {e : Failure} (unit : w.units[u]? = some x)
    (fails : w.failure? u x yes = some e) (c thread : Nat) :
    w.admitted c u thread yes = w.finishCommit c u (.error (.failure e)) := by
  simp only [admitted, unit]
  unfold failure? at fails
  cases yes with
  | false =>
      obtain rfl := Option.some.inj fails
      rfl
  | true =>
      simp only [Bool.not_true, Bool.false_eq_true, if_false] at fails ⊢
      cases yielded : w.hasYielded (w.rootOf u) with
      | false => simp [yielded] at fails
      | true =>
          rw [yielded] at fails
          obtain rfl := Option.some.inj fails
          obtain ⟨y, root, released⟩ : ∃ y, w.units[w.rootOf u]? = some y ∧
              y.slot = .released := by
            simpa [hasYielded, Option.any_eq_true] using yielded
          simp only [enterTransaction, root, released]

theorem letThrough_admitted {y : UnitOfWork} (unit : w.units[u]? = some x)
    (root : w.units[w.rootOf u]? = some y) (holds : w.hasYielded (w.rootOf u) = false)
    (c thread : Nat) : w.LetThrough c u thread (w.admitted c u thread true) := by
  rw [hasYielded_of root] at holds
  simp only [admitted, unit, enterTransaction, root, Bool.not_true, Bool.false_eq_true, if_false]
  cases slot : y.slot with
  | released => simp [slot] at holds
  | live n => exact .enter unit root slot
  | pending => exact .found unit root slot

theorem failure?_eq_none : w.failure? u x yes = none ↔
    yes = true ∧ w.hasYielded (w.rootOf u) = false := by
  unfold failure?
  cases yes <;> cases w.hasYielded (w.rootOf u) <;> simp

theorem Passes.failure?_eq (h : w.Passes w' c v thread s) (unit : w.units[u]? = some x)
    (unit' : w'.units[u]? = some x') (yes : Bool) : w'.failure? u x' yes = w.failure? u x yes := by
  obtain ⟨x₁, unit₁, same⟩ := h.exists_unit unit'
  obtain rfl := Option.some.inj (unit.symm.trans unit₁)
  obtain ⟨id, lineage, -, -⟩ := UnitOfWork.of_finish_eq same
  have root : w'.rootOf u = w.rootOf u := by
    rw [rootOf_eq unit, rootOf_eq unit', lineage]
  have yielded : w'.hasYielded (w.rootOf u) = w.hasYielded (w.rootOf u) :=
    h.any_eq (p := fun x => x.slot == .released) (fun _ => rfl) _
  rw [failure?, failure?, root, yielded, id]

/-- What comes of a commit once the manager has answered. A commit that is refused leaves no trace,
and no capability is called. No commit runs on its unit then, so that a later one is refused only if
the unit is disposed. Any other commit goes on to the capability. -/
def Judged (w w' : World) (c u thread : Nat) (x : UnitOfWork) (yes : Bool) : Prop :=
  match w.failure? u x yes with
  | some e =>
    w.Passes w' c u thread (.done (.commit (.ok (.error (.failure e))))) ∧
      (∀ v, callsBetween v w w' = []) ∧ w'.isCommitting u = false ∧
      ∀ x', w'.units[u]? = some x' →
        w'.breach? u x' = if x.disposed then some (.disposed x.id) else none
  | none => w'.isAtWork u c = true

theorem LetThrough.isAtWork (through : w.LetThrough c u thread w')
    (running : w.operations[c]? = some ⟨u, thread, .admission⟩) : w'.isAtWork u c = true := by
  obtain ⟨scope, moved⟩ := through.operations_eq
  refine isAtWork_iff.mpr ⟨thread, scope, ?_⟩
  simp [moved, moveTo, running]

/-- A commit that waits for the answer of the manager is judged when it gets it. -/
theorem judged_admitted (order : w.Orderly) (unit : w.units[u]? = some x)
    (running : w.operations[c]? = some ⟨u, thread, .admission⟩) (yes : Bool) :
    w.Judged (w.admitted c u thread yes) c u thread x yes := by
  unfold Judged
  cases fails : w.failure? u x yes with
  | none =>
      obtain ⟨rfl, holds⟩ := failure?_eq_none.mp fails
      obtain ⟨y, root, -⟩ := order.rooted unit
      rw [← rootOf_eq unit] at root
      exact (letThrough_admitted unit root holds c thread).isAtWork running
  | some e =>
      rw [admitted_of_failure? unit fails]
      have passes := passes_finishCommit running (.error (.failure e))
      have idle : (w.finishCommit c u (.error (.failure e))).isCommitting u = false := by
        rw [isCommitting_eq_false]
        intro d thread' s' after
        by_cases same : d = c
        · subst same
          cases after.symm.trans passes.here
          rfl
        · rw [passes.others d same] at after
          exact Bool.eq_false_iff.mpr fun busy => same (order.alone after running busy rfl)
      refine ⟨passes, passes.callsBetween_eq_nil (by simp), idle, fun x' unit' => ?_⟩
      obtain ⟨x₁, unit₁, same⟩ := passes.exists_unit unit'
      obtain rfl := Option.some.inj (unit.symm.trans unit₁)
      have inDoubt : x.status = .inDoubt :=
        (Option.some.inj (order.shown running unit rfl).2).symm
      obtain ⟨id, -, status, disposed⟩ := UnitOfWork.of_finish_eq same
      simp [breach?, idle, disposed, status, id, inDoubt]

theorem Judged.of_passes (first : w.Passes w₁ c u thread s) (unit : w.units[u]? = some x)
    {x₁ : UnitOfWork} (unit₁ : w₁.units[u]? = some x₁) (judged : w₁.Judged w' c u thread x₁ yes) :
    w.Judged w' c u thread x yes := by
  obtain ⟨x₂, unit₂, same⟩ := first.exists_unit unit₁
  obtain rfl := Option.some.inj (unit.symm.trans unit₂)
  obtain ⟨id, -, -, disposed⟩ := UnitOfWork.of_finish_eq same
  unfold Judged at judged ⊢
  rw [first.failure?_eq unit unit₁] at judged
  cases fails : w.failure? u x yes with
  | none => simpa only [fails] using judged
  | some e =>
      simp only [fails, disposed, id] at judged ⊢
      obtain ⟨second, -, rest⟩ := judged
      have passes := first.trans second
      exact ⟨passes, passes.callsBetween_eq_nil (by simp), rest⟩

theorem perform_answer_admission (running : w.operations[c]? = some ⟨u, thread, .admission⟩)
    (yes : Bool) :
    w.perform (.answer (.operation c) (.allowed yes)) = w.admitted c u thread yes := by
  simp only [perform, answer, running, answerOperation]

/-- A commit that is let in waits for a manager that decides outside, and is judged at once by any
other. -/
theorem perform_commit (unit : w.units[u]? = some x) (allowed : commitViolation? x = none)
    (thread : Nat) : w.perform (.commit u thread) =
      let w₁ := (w.modifyUnit u fun x => { x with committing := true }).push ⟨u, thread, .admission⟩
      match w.admits? x.manager u with
      | some yes => w₁.admitted w.operations.length u thread yes
      | none => w₁ := by
  have answers : ((w.modifyUnit u fun x => { x with committing := true }).push
      ⟨u, thread, .admission⟩).admits? x.manager u = w.admits? x.manager u :=
    admits?_modifyUnit (f := fun x => { x with committing := true }) w u (fun _ => ⟨rfl, rfl⟩) ..
  cases decided : w.admits? x.manager u <;>
    simp [perform, beginCommit, unit, allowed, answers, decided]

/-! ## The one question to the manager -/

/-- The manager of a unit is asked whether the unit may commit, for an operation. -/
def isAsking (w : World) (u c : Nat) : Bool :=
  match w.need (.operation c) with
  | .manager .canCommit v => v == u
  | _ => false

/-- The operations for which a manager is asked between two worlds whether a unit may commit. -/
def questionsBetween (u : Nat) (w w' : World) : List Nat :=
  (List.range w'.operations.length).filter fun c => w'.isAsking u c && !w.isAsking u c

/-- The operations for which a manager is asked whether a unit may commit, in the order in which it
is asked. -/
def questions (u : Nat) : List World → List Nat
  | w :: w' :: rest => questionsBetween u w w' ++ questions u (w' :: rest)
  | _ => []

theorem isAsking_iff :
    w.isAsking u c = true ↔ ∃ thread, w.operations[c]? = some ⟨u, thread, .admission⟩ := by
  rw [← need_eq_canCommit]
  unfold isAsking
  split
  next v need => simp [need]
  next other => simpa using other u

theorem isEntered_of_isAsking (asking : w.isAsking u c = true) :
    w.isAt u c Stage.isEntered = true := by
  obtain ⟨thread, running⟩ := isAsking_iff.mp asking
  exact isAt_of running

/-- A turn takes a commit on if it was let in, and nobody else into one. -/
theorem Turns.isEntered_eq (turns : w.Turns c u x thread l s f n actions s') :
    s'.isEntered = s.isEntered ∧ s' ≠ .admission := by
  cases turns with
  | finish judges | yield judges =>
      have running := Stage.isEntered_of_isRunning judges.running.1
      exact ⟨running.symm, by simp⟩
  | leave leaves =>
      constructor
      · cases leaves <;> split <;> rfl
      · split <;> simp
  | _ => exact ⟨rfl, by simp⟩

/-- An operation that has just been begun is at its manager's, or is no commit that was let in. -/
theorem Step.isEntered_fresh {o : Operation} (step : w.Step l w')
    (absent : w.operations[c]? = none) (begun : w'.operations[c]? = some o) :
    o.stage = .admission ∨ o.stage.isEntered = false := by
  have pushed {o' : Operation} (kind : o'.stage = .admission ∨ o'.stage.isEntered = false)
      (back : w.operations[c]? = some o ∨ c = w.operations.length ∧ o = o') :
      o.stage = .admission ∨ o.stage.isEntered = false := by
    rcases back with old | ⟨-, rfl⟩
    · cases absent.symm.trans old
    · exact kind
  cases step with
  | accept => exact pushed (.inl rfl) (operations_push begun)
  | refuse | release => exact pushed (.inr rfl) (operations_push begun)
  | push aside =>
      refine pushed (.inr ?_) (operations_push begun)
      rcases aside with rfl | rfl | rfl <;> rfl
  | turn running =>
      rcases operations_moveTo running begun with ⟨-, old⟩ | ⟨rfl, -⟩
      · cases absent.symm.trans old
      · cases absent.symm.trans running
  | answered running =>
      rcases operations_moveTo running begun with ⟨-, old⟩ | ⟨rfl, -⟩
      · cases absent.symm.trans old
      · cases absent.symm.trans running
  | _ => cases absent.symm.trans begun

/-- A commit that has been let in stays so. -/
theorem Step.isEntered (step : w.Step l w') (entered : w.isAt u c Stage.isEntered = true) :
    w'.isAt u c Stage.isEntered = true := by
  obtain ⟨thread, s, running, here⟩ := isAt_iff.mp entered
  obtain ⟨s', running', advances⟩ := step.advances running
  rw [isAt_of running']
  cases advances with
  | stay => exact here
  | answered waits => rcases waits with rfl | rfl | rfl <;> cases here
  | turn _ turns => exact turns.isEntered_eq.1.trans here

/-- The manager is asked at a step exactly if a commit is let in by it. -/
theorem Step.mem_questionsBetween (step : w.Step l w') : c ∈ questionsBetween u w w' ↔
    w'.isAt u c Stage.isEntered = true ∧ w.isAt u c Stage.isEntered = false := by
  have split : c ∈ questionsBetween u w w' ↔
      w'.isAsking u c = true ∧ w.isAsking u c = false := by
    simp only [questionsBetween, List.mem_filter, List.mem_range, Bool.and_eq_true,
      Bool.not_eq_true', and_iff_right_iff_imp]
    rintro ⟨asking, -⟩
    obtain ⟨thread, running⟩ := isAsking_iff.mp asking
    exact (List.getElem?_eq_some_iff.mp running).1
  rw [split]
  constructor
  · rintro ⟨asking, before⟩
    refine ⟨isEntered_of_isAsking asking, ?_⟩
    obtain ⟨thread, running'⟩ := isAsking_iff.mp asking
    rcases step.operation_back running' with ⟨s, running, advances⟩ | ⟨absent, -⟩
    · generalize eq : Stage.admission = s' at advances
      cases advances with
      | stay =>
          rw [isAsking_iff.mpr ⟨thread, eq ▸ running⟩] at before
          cases before
      | answered => cases eq
      | turn _ turns => exact absurd eq.symm turns.isEntered_eq.2
    · simp [isAt, absent]
  · rintro ⟨entered, before⟩
    obtain ⟨thread, s', running', here⟩ := isAt_iff.mp entered
    have asking : s' = .admission := by
      rcases step.operation_back running' with ⟨s, running, advances⟩ | ⟨absent, -⟩
      · rw [isAt_of running] at before
        cases advances with
        | stay => cases before.symm.trans here
        | answered => cases here
        | turn _ turns => cases before.symm.trans (turns.isEntered_eq.1.symm.trans here)
      · refine (step.isEntered_fresh absent running').resolve_right fun late => ?_
        cases late.symm.trans here
    refine ⟨isAsking_iff.mpr ⟨thread, asking ▸ running'⟩, ?_⟩
    refine Bool.eq_false_iff.mpr fun early => ?_
    cases before.symm.trans (isEntered_of_isAsking early)

/-- The manager is asked once for every commit that is let in along the way. -/
theorem count_questions (chain : (w :: rest).IsChain Follows) (u c : Nat) :
    (questions u (w :: rest)).count c + (w.isAt u c Stage.isEntered).toNat =
      (((w :: rest).getLast (List.cons_ne_nil _ _)).isAt u c Stage.isEntered).toNat := by
  induction rest generalizing w with
  | nil => simp [questions]
  | cons w' rest ih =>
      obtain ⟨⟨l, step⟩, chain⟩ := List.isChain_cons_cons.mp chain
      have later := ih chain
      have nodup : (questionsBetween u w w').Nodup := List.nodup_range.filter _
      have here : (questionsBetween u w w').count c + (w.isAt u c Stage.isEntered).toNat =
          (w'.isAt u c Stage.isEntered).toNat := by
        rw [nodup.count]
        cases before : w.isAt u c Stage.isEntered with
        | true => simp [step.mem_questionsBetween, before, step.isEntered before]
        | false =>
            cases after : w'.isAt u c Stage.isEntered <;>
              simp [step.mem_questionsBetween, before, after]
      rw [List.getLast_cons_cons, questions, List.count_append]
      omega

/-- In the course of a run, the manager is asked once for every commit that was let in, and not at
all for any other operation. -/
theorem Course.count_questions (course : Course managers past ws) (u c : Nat) :
    (questions u ws).count c =
      (((initial managers).run past).isAt u c Stage.isEntered).toNat := by
  obtain ⟨front, eq⟩ := course.exists_eq_concat
  obtain ⟨rest, rfl⟩ := course.exists_eq_cons
  have counts := World.count_questions course.isChain u c
  have none : (initial managers).isAt u c Stage.isEntered = false := by simp [isAt, initial]
  simpa only [eq, List.getLast_append_singleton, none, Bool.toNat_false, Nat.add_zero] using counts

/-! ## All together -/

/-- Refusals of commits are exact, and leave no trace.

In every reachable world, a commit of a unit returns with the breach of contract that it would be,
and nothing else happens. Otherwise it waits for its manager, or is judged at once if the manager
decides in this world; so far nothing else happens either. When the manager answers, whatever it has
done before that, the commit returns with the failure that there is in the world at that moment,
and the answer leaves no trace, or it goes on to the capability. In every course of the run, the
manager is asked once for each commit that was let in and for no other. -/
theorem refusals_exact (managers : List Manager) (past : List Action) (u : Nat) (x : UnitOfWork)
    (unit : ((initial managers).run past).units[u]? = some x) :
    let w := (initial managers).run past
    (∀ thread v, w.breach? u x = some v →
      w.perform (.commit u thread) = w.push ⟨u, thread, .done (.commit (.error v))⟩) ∧
    (∀ thread, w.breach? u x = none →
      match w.admits? x.manager u with
      | some yes => w.Judged (w.perform (.commit u thread)) w.operations.length u thread x yes
      | none => w.Passes (w.perform (.commit u thread)) w.operations.length u thread .admission) ∧
    (∀ c thread yes, w.operations[c]? = some ⟨u, thread, .admission⟩ →
      w.Judged (w.perform (.answer (.operation c) (.allowed yes))) c u thread x yes) ∧
    ∀ ws c, Course managers past ws →
      (questions u ws).count c = (w.isAt u c Stage.isEntered).toNat := by
  intro w
  have order : w.Orderly := orderly_run managers past
  obtain ⟨gated, busy⟩ := gated_run managers past
  have same : commitViolation? x = w.breach? u x := commitViolation?_eq order gated busy unit
  refine ⟨?_, ?_, ?_, ?_⟩
  · intro thread v breach
    rw [← same] at breach
    simp only [perform, beginCommit, w, unit, breach]
  · intro thread breach
    have allowed : commitViolation? x = none := same.trans breach
    have passes := w.passes_accept u thread
    have up := update_accept unit thread
    rw [perform_commit unit allowed]
    cases answer : w.admits? x.manager u with
    | none => exact passes
    | some yes =>
        have judged := judged_admitted (order.accept unit allowed thread) up.after passes.here yes
        exact judged.of_passes passes unit up.after
  · intro c thread yes running
    rw [perform_answer_admission running]
    exact judged_admitted order unit running yes
  · intro ws c course
    exact course.count_questions u c

/-- A commit of a root waits for its manager. -/
def hesitant : List Action :=
  [.openUnit ⟨"root", "shared", none, 0, 0, .default⟩, .answer (.operation 0) .done, .commit 0 0]

/-- The manager refuses a commit that waits for it: no transaction is created, and the next commit
may enter. -/
theorem refusals_exact_hesitant :
    let w := (initial [.external]).run hesitant
    let w' := w.perform (.answer (.operation 1) (.allowed false))
    (∃ x, w.units[0]? = some x ∧ w.operations[1]? = some ⟨0, 0, .admission⟩) ∧
      w'.operations[1]? =
        some ⟨0, 0, .done (.commit (.ok (.error (.failure (.notCommittable "root")))))⟩ ∧
      w'.transactions = [] ∧ (∀ v, callsBetween v w w' = []) ∧ w'.isCommitting 0 = false := by
  intro w w'
  have judged := (refusals_exact [.external] hesitant 0 _ rfl).2.2.1 1 0 false rfl
  obtain ⟨passes, quiet, idle, -⟩ := judged
  exact ⟨⟨_, rfl, rfl⟩, passes.here, passes.transactions, quiet, idle⟩

end World

end NestedWork
