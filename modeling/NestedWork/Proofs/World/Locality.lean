import NestedWork.Proofs.World.Mirror

/-!
# What happens in a part of the world

Whatever is done in a part of the world is done in the same way in the whole, and nothing else
changes there: the managers find the same units, the transactions reach the same points, and what
comes about gets the next names.

## Implementation notes

The relation between the part and the whole is carried through every function of the world, up to an
action. Only a capability that has done its work, a turn of a call and a client's own commit can
leave a commit waiting, so only these ask that no call waits in the part.
-/

namespace NestedWork.World

variable {ν : Naming} {b l w : World} {c u n : Nat}

namespace Mirrors

/-! ## Commits -/

theorem finishCommit (h : Mirrors ν b l w) (c u : Nat) (result : Response Unit) :
    Mirrors ν b (l.finishCommit c u result)
      (w.finishCommit (ν.operation c) (ν.unit u) result) :=
  (h.modifyUnit u .finish .finish fun _ => rfl).moveTo c (.done (.commit (.ok result)))

theorem yieldHandle (h : Mirrors ν b l w) (c u : Nat) (scope : Scope) (result : Response Unit) :
    Mirrors ν b (l.yieldHandle c u scope result)
      (w.yieldHandle (ν.operation c) (ν.unit u) (scope.rename ν) result) := by
  have lowered := h.modifyUnit u (fun x => { x with handles := x.handles - 1 })
    (fun x => { x with handles := x.handles - 1 }) fun _ => rfl
  have handles := congrArg (Option.map UnitOfWork.handles) (lowered.unit u)
  rw [Option.map_map, show UnitOfWork.handles ∘ UnitOfWork.rename ν = UnitOfWork.handles from rfl]
    at handles
  unfold World.yieldHandle
  cases owner : scope.owner with
  | false => simpa [Scope.rename, owner] using h.finishCommit c u result
  | true =>
      simp only [Scope.rename, owner, if_true, handles]
      split
      next =>
        obtain ⟨called, inner⟩ := lowered.call_of_ne scope.transaction (.abort .ownerReleased)
          (by simp)
        rw [inner, called.result?]
        split
        next => exact called.finishCommit c u result
        next => exact called.moveTo c (.yielding result _)
      next => exact lowered.finishCommit c u result

theorem discardDependent (h : Mirrors ν b l w) (c u : Nat) (scope : Scope) (e : ResponseError) :
    Mirrors ν b (l.discardDependent c u scope e)
      (w.discardDependent (ν.operation c) (ν.unit u) (scope.rename ν) e) := by
  unfold World.discardDependent
  cases held : scope.dependent with
  | none => simpa [Scope.rename, held] using h.yieldHandle c u scope (.error e)
  | some k =>
      have held' : (scope.rename ν).dependent = some k := held
      simp only [held']
      obtain ⟨called, inner⟩ := h.call_of_ne scope.transaction (.release k false) (by simp)
      dsimp only [Scope.rename] at inner ⊢
      rw [inner, called.result?]
      split
      next => exact called.yieldHandle c u scope (.error e)
      next => exact called.moveTo c (.discarding scope e _)

theorem workFailed (h : Mirrors ν b l w) (c u : Nat) (scope : Scope) (e : ResponseError) :
    Mirrors ν b (l.workFailed c u scope e)
      (w.workFailed (ν.operation c) (ν.unit u) (scope.rename ν) e) := by
  have aborted := h.modifyUnit u (fun x => { x with status := .aborted })
    (fun x => { x with status := .aborted }) fun _ => rfl
  obtain ⟨called, inner⟩ :=
    aborted.call_of_ne scope.transaction (.abort .scopeNotCompleted) (by simp)
  unfold World.workFailed
  dsimp only [Scope.rename]
  rw [inner, called.result?]
  split
  next => exact called.discardDependent c u scope e
  next => exact called.moveTo c (.leaving scope e _)

theorem commitFailure (h : Mirrors ν b l w) (u n : Nat) (cause : Aborted) :
    w.commitFailure (ν.unit u) (ν.transaction n) cause = l.commitFailure u n cause := by
  simp only [World.commitFailure, h.unit, h.transaction]
  cases l.units[u]? <;> cases w.transactions[ν.transaction n]? <;> rfl

theorem transactionReturned (h : Mirrors ν b l w) (c u : Nat) (scope : Scope)
    (r : Except Aborted Unit) : Mirrors ν b (l.transactionReturned c u scope r)
      (w.transactionReturned (ν.operation c) (ν.unit u) (scope.rename ν) r) := by
  cases r with
  | ok => exact h.yieldHandle c u scope (.data ())
  | error cause =>
      have aborted := h.modifyUnit u (fun x => { x with status := .aborted })
        (fun x => { x with status := .aborted }) fun _ => rfl
      have same := aborted.commitFailure u scope.transaction cause
      unfold World.transactionReturned
      dsimp only [Scope.rename]
      rw [same]
      exact aborted.yieldHandle c u scope _

theorem completeDependent (h : Mirrors ν b l w) (scope : Scope) :
    Mirrors ν b (l.completeDependent scope) (w.completeDependent (scope.rename ν)) := by
  unfold World.completeDependent
  cases held : scope.dependent with
  | none => simpa [Scope.rename, held] using h
  | some k =>
      simp only [Scope.rename, held]
      exact (h.call_of_ne scope.transaction (.release k true) (by simp)).1

/-- A capability has done its work in the same way on both sides, unless a commit is to wait. -/
theorem workSucceeded (h : Mirrors ν b l w) (c u : Nat) (scope : Scope)
    (awake : (l.workSucceeded c u scope).isAwake = true) :
    Mirrors ν b (l.workSucceeded c u scope)
      (w.workSucceeded (ν.operation c) (ν.unit u) (scope.rename ν)) := by
  have committed := (h.modifyUnit u (fun x => { x with status := .committed })
    (fun x => { x with status := .committed }) fun _ => rfl).completeDependent scope
  unfold World.workSucceeded at awake ⊢
  cases owner : scope.owner with
  | false => simpa [Scope.rename, owner] using committed.finishCommit c u (.data ())
  | true =>
      simp only [owner, if_true] at awake
      have owner' : (scope.rename ν).owner = true := owner
      rw [if_pos rfl, if_pos owner']
      obtain ⟨called, inner⟩ := committed.call scope.transaction .commit fun t there => by
        split at awake
        next r returned => exact isWaiting_of_result? returned there
        next => exact isWaiting_of_isAwake awake there _
      dsimp only [Scope.rename] at inner called ⊢
      rw [inner, called.result?]
      split
      next r _ => exact called.transactionReturned c u scope r
      next => exact called.moveTo c (.completing scope _)

theorem enterTransaction (h : Mirrors ν b l w) (r : Nat) :
    Mirrors ν b (l.enterTransaction r).1 (w.enterTransaction (ν.unit r)).1 ∧
      (w.enterTransaction (ν.unit r)).2 = (l.enterTransaction r).2.map ν.transaction := by
  simp only [World.enterTransaction, h.unit]
  cases l.units[r]? with
  | none => exact ⟨h, rfl⟩
  | some x =>
      simp only [Option.map_some, UnitOfWork.rename]
      cases x.slot with
      | pending =>
          have next := h.transactions.place_length
          have opened := (h.openTransaction x.transactionId x.options).modifyUnit r
            (fun x => { x with slot := .live l.transactions.length, handles := x.handles + 1 })
            (fun x => { x with slot := .live w.transactions.length, handles := x.handles + 1 })
            fun x => by simp [UnitOfWork.rename, Slot.rename, next]
          exact ⟨opened, congrArg some next.symm⟩
      | live n => exact ⟨h, rfl⟩
      | released => exact ⟨h, rfl⟩

theorem isRoot_rename (ν : Naming) (x : UnitOfWork) : (x.rename ν).isRoot = x.isRoot := by
  simp [UnitOfWork.isRoot, UnitOfWork.rename]

theorem enter_rename (ν : Naming) (n : Nat) (x : UnitOfWork) :
    (x.rename ν).enter (ν.transaction n) = (x.enter n).rename ν := by
  simp only [UnitOfWork.enter, isRoot_rename]
  rfl

theorem enterScope (h : Mirrors ν b l w) (u : Nat) (x : UnitOfWork) (n thread : Nat) :
    Mirrors ν b (l.enterScope u x n thread).1
        (w.enterScope (ν.unit u) (x.rename ν) (ν.transaction n) (ν.thread thread)).1 ∧
      (w.enterScope (ν.unit u) (x.rename ν) (ν.transaction n) (ν.thread thread)).2 =
        (l.enterScope u x n thread).2.rename ν := by
  by_cases away : thread ≠ x.thread
  · have away' : ν.thread thread ≠ (x.rename ν).thread := fun eq =>
      away (h.injective.thread eq)
    have issued := h.modifyTransaction n (f := fun y => y.issue .blocking)
      (g := fun y => y.issue .blocking) fun t _ => t.timeless_issue n .blocking
    have dependents : (w.transactions[ν.transaction n]?).map (fun t => t.dependents.length) =
        (l.transactions[n]?).map fun t => t.dependents.length := by
      rw [h.transaction, Option.map_map]
      rfl
    simp only [World.enterScope, if_pos away, if_pos away']
    refine ⟨issued.modifyUnit u (.enter n) (.enter (ν.transaction n)) (enter_rename ν n), ?_⟩
    rw [dependents, isRoot_rename]
    rfl
  · have here : ¬ ν.thread thread ≠ (x.rename ν).thread := by
      rw [not_not] at away ⊢
      exact congrArg ν.thread away
    simp only [World.enterScope, if_neg away, if_neg here]
    refine ⟨h.modifyUnit u (.enter n) (.enter (ν.transaction n)) (enter_rename ν n), ?_⟩
    rw [isRoot_rename]
    rfl

theorem admitted (h : Mirrors ν b l w) (c u thread : Nat) (allowed : Bool) :
    Mirrors ν b (l.admitted c u thread allowed)
      (w.admitted (ν.operation c) (ν.unit u) (ν.thread thread) allowed) := by
  simp only [World.admitted, h.unit, h.rootOf]
  cases l.units[u]? with
  | none => exact h
  | some x =>
      cases allowed with
      | false => exact h.finishCommit c u _
      | true =>
          have entered := h.enterTransaction (l.rootOf u)
          simp only [Option.map_some, Bool.not_true, Bool.false_eq_true, if_false]
          generalize l.enterTransaction (l.rootOf u) = here at entered ⊢
          generalize w.enterTransaction (ν.unit (l.rootOf u)) = there at entered ⊢
          obtain ⟨l₁, found⟩ := here
          obtain ⟨w₁, found'⟩ := there
          obtain ⟨entered, rfl⟩ := entered
          cases found with
          | none => exact entered.finishCommit c u _
          | some n =>
              obtain ⟨within, scope⟩ := entered.enterScope u x n thread
              simp only [Option.map_some, scope]
              exact within.moveTo c (.work _)

theorem commitViolation?_rename (ν : Naming) (x : UnitOfWork) :
    commitViolation? (x.rename ν) = commitViolation? x := rfl

theorem beginCommit (h : Mirrors ν b l w) (u thread : Nat) :
    Mirrors ν b (l.beginCommit u thread) (w.beginCommit (ν.unit u) (ν.thread thread)) := by
  simp only [World.beginCommit, h.unit]
  cases there : l.units[u]? with
  | none => exact h
  | some x =>
      have seat : u < l.units.length := (List.getElem?_eq_some_iff.mp there).1
      simp only [Option.map_some, commitViolation?_rename]
      split
      next v _ => exact h.push (o := ⟨u, thread, .done (.commit (.error v))⟩) seat
      next =>
        have marked := h.modifyUnit u (fun x => { x with committing := true })
          (fun x => { x with committing := true }) fun _ => rfl
        have begun := marked.push (o := ⟨u, thread, .admission⟩) (by simpa [World.modifyUnit])
        have asked := begun.admits? x.manager u
        simp only [Operation.rename, Stage.rename] at begun asked
        rw [show (x.rename ν).manager = x.manager from rfl, asked]
        split
        next allowed _ =>
          rw [← h.operations.place_length]
          exact begun.admitted _ u thread allowed
        next => exact begun

/-! ## Openings -/

theorem lowerUnit (h : Mirrors ν b l w) (u : Nat) (timeout : Duration) :
    Mirrors ν b (l.lowerUnit u timeout) (w.lowerUnit (ν.unit u) timeout) := by
  simp only [World.lowerUnit, h.unit]
  cases l.units[u]? with
  | none => exact h
  | some x =>
      simp only [Option.map_some, UnitOfWork.rename]
      split
      next => exact h
      next =>
        have lowered := h.modifyUnit u
          (fun x => { x with options := x.options.withTimeout timeout })
          (fun x => { x with options := x.options.withTimeout timeout }) fun _ => rfl
        cases x.slot with
        | live n => exact (lowered.call_of_ne n (.lower timeout) (by simp)).1
        | _ => exact lowered

theorem lowerUnits (h : Mirrors ν b l w) (us : List Nat) (timeout : Duration) :
    Mirrors ν b (us.foldl (fun w v => w.lowerUnit v timeout) l)
      ((us.map ν.unit).foldl (fun w v => w.lowerUnit v timeout) w) := by
  induction us generalizing l w with
  | nil => exact h
  | cons v rest ih => exact ih (h.lowerUnit v timeout)

theorem nest_rename (ν : Naming) (x : UnitOfWork) (options : TransactionOptions) :
    nest (x.rename ν) options = nest x options := rfl

theorem resolve (h : Mirrors ν b l w) (parent : Option Nat) (options : TransactionOptions) :
    w.resolve (parent.map ν.unit) options =
      (l.resolve parent options).map fun (options, us) => (options, us.map ν.unit) := by
  simp only [World.resolve]
  split
  next => rfl
  next =>
    cases parent with
    | none => rfl
    | some p =>
        simp only [Option.map_some, Option.bind_some, h.unit]
        cases l.units[p]? with
        | none => rfl
        | some x =>
            simp only [Option.map_some, nest_rename]
            cases nest x options with
            | error => rfl
            | ok given =>
                obtain ⟨options, lowers⟩ := given
                cases lowers <;> rfl

theorem lineageUnder (h : Mirrors ν b l w) (parent : Option Nat) :
    w.lineageUnder (parent.map ν.unit) = (l.lineageUnder parent).map ν.unit := by
  cases parent with
  | none => rfl
  | some p =>
      simp only [World.lineageUnder, Option.map_some, h.unit]
      cases l.units[p]? <;> rfl

theorem openedUnit (h : Mirrors ν b l w) (o : Opening) (options : TransactionOptions) :
    w.openedUnit (o.rename ν) options = (l.openedUnit o options).rename ν := by
  simp only [World.openedUnit, Opening.rename, h.lineageUnder]
  rfl

/-- The manager learns of a new unit, or takes it up. -/
theorem welcome (h : Mirrors ν b l w) (m thread : Nat) (seat : u < l.units.length) :
    Mirrors ν b
      (if l.isExternal m then l.push ⟨u, thread, .welcome⟩
        else (l.register m u).push ⟨u, thread, .done .returned⟩)
      (if w.isExternal m then w.push ⟨ν.unit u, ν.thread thread, .welcome⟩
        else (w.register m (ν.unit u)).push ⟨ν.unit u, ν.thread thread, .done .returned⟩) := by
  rw [h.isExternal]
  split
  · exact h.push (o := ⟨u, thread, .welcome⟩) seat
  · exact (h.register m u).push (o := ⟨u, thread, .done .returned⟩) seat

theorem openUnit (h : Mirrors ν b l w) (o : Opening) :
    Mirrors ν b ((l.openUnit o).toOption.getD l)
      ((w.openUnit (o.rename ν)).toOption.getD w) := by
  have given : w.resolve (o.rename ν).parent (o.rename ν).options = _ :=
    h.resolve o.parent o.options
  simp only [World.openUnit, given]
  cases l.resolve o.parent o.options with
  | error => exact h
  | ok given =>
      obtain ⟨options, us⟩ := given
      have lowered := (h.lowerUnits us o.options.timeout).appendUnit (l.openedUnit o options)
      rw [← h.openedUnit] at lowered
      have place : ν.unit l.units.length = w.units.length := h.units.place_length
      have length := (steps_lowerUnits us o.options.timeout l none).2.2.1
      have seat : l.units.length < (us.foldl (fun w v => w.lowerUnit v o.options.timeout)
          l).units.length + 1 := by omega
      have welcomed :=
        lowered.welcome o.manager o.thread (u := l.units.length) (by simpa using seat)
      rw [place] at welcomed
      exact welcomed

/-! ## Releases -/

theorem bidFarewell (h : Mirrors ν b l w) (c u : Nat) :
    Mirrors ν b (l.bidFarewell c u) (w.bidFarewell (ν.operation c) (ν.unit u)) := by
  simp only [World.bidFarewell, h.unit]
  cases l.units[u]? with
  | none => exact h
  | some x =>
      simp only [Option.map_some, UnitOfWork.rename, h.isExternal]
      split
      · exact h.moveTo c .farewell
      · exact (h.forget x.manager u).moveTo c (.done .returned)

theorem resourcesDisposed (h : Mirrors ν b l w) (c u : Nat) :
    Mirrors ν b (l.resourcesDisposed c u)
      (w.resourcesDisposed (ν.operation c) (ν.unit u)) := by
  simp only [World.resourcesDisposed, h.unit]
  cases l.units[u]? with
  | none => exact h
  | some x =>
      simp only [Option.map_some, isRoot_rename]
      split
      next => exact h.bidFarewell c u
      next =>
        have released := h.modifyUnit u (fun x => { x with slot := .released })
          (fun x => { x with slot := .released }) fun _ => rfl
        have surrendered := h.modifyUnit u
          (fun x => { x with slot := .released, handles := x.handles - 1 })
          (fun x => { x with slot := .released, handles := x.handles - 1 }) fun _ => rfl
        have slot : (x.rename ν).slot = x.slot.rename ν := rfl
        cases held : x.slot with
        | live n =>
            simp only [slot, held, Slot.rename]
            by_cases last : x.handles ≤ 1
            · have last' : (x.rename ν).handles ≤ 1 := last
              rw [if_pos last, if_pos last']
              obtain ⟨called, inner⟩ := surrendered.call_of_ne n (.abort .ownerReleased) (by simp)
              rw [inner, called.result?]
              split
              next => exact called.bidFarewell c u
              next => exact called.moveTo c (.surrender _)
            · have last' : ¬ (x.rename ν).handles ≤ 1 := last
              rw [if_neg last, if_neg last']
              exact surrendered.bidFarewell c u
        | _ =>
            simp only [slot, held, Slot.rename]
            exact released.bidFarewell c u

theorem permitted (h : Mirrors ν b l w) (c u : Nat) (dropping allowed : Bool) :
    Mirrors ν b (l.permitted c u dropping allowed)
      (w.permitted (ν.operation c) (ν.unit u) dropping allowed) := by
  simp only [World.permitted, h.unit]
  cases l.units[u]? with
  | none => exact h
  | some x =>
      simp only [Option.map_some, UnitOfWork.rename]
      split
      · exact h.moveTo c (.done .returned)
      · exact (h.modifyUnit u (fun x => { x with disposed := true })
          (fun x => { x with disposed := true }) fun _ => rfl).moveTo c .disposal

theorem beginRelease (h : Mirrors ν b l w) (u thread : Nat) (dropping : Bool) :
    Mirrors ν b (l.beginRelease u thread dropping)
      (w.beginRelease (ν.unit u) (ν.thread thread) dropping) := by
  simp only [World.beginRelease, h.unit]
  cases there : l.units[u]? with
  | none => exact h
  | some x =>
      have seat : u < l.units.length := (List.getElem?_eq_some_iff.mp there).1
      simp only [Option.map_some, UnitOfWork.rename]
      split
      next => exact h.push (o := ⟨u, thread, .done .returned⟩) seat
      next =>
        have begun := h.push (o := ⟨u, thread, .permission dropping⟩) seat
        have asked := begun.permits? x.manager u
        simp only [Operation.rename, Stage.rename] at begun asked
        rw [asked]
        split
        next allowed _ =>
          rw [← h.operations.place_length]
          exact begun.permitted _ u dropping allowed
        next => exact begun

/-! ## What is under way -/

theorem resume (h : Mirrors ν b l w) (c : Nat) :
    Mirrors ν b (l.resume c) (w.resume (ν.operation c)) := by
  simp only [World.resume, h.operation]
  cases l.operations[c]? with
  | none => exact h
  | some o =>
      simp only [Option.map_some, Operation.rename]
      cases o.stage with
      | leaving scope e i =>
          simp only [Stage.rename, h.result?]
          split
          · exact h.discardDependent c o.unit scope e
          · exact h
      | discarding scope e i =>
          simp only [Stage.rename, h.result?]
          split
          · exact h.yieldHandle c o.unit scope (.error e)
          · exact h
      | completing scope i =>
          simp only [Stage.rename, h.result?]
          split
          · exact h.transactionReturned c o.unit scope _
          · exact h
      | yielding result i =>
          simp only [Stage.rename, h.result?]
          split
          · exact h.finishCommit c o.unit result
          · exact h
      | surrender i =>
          simp only [Stage.rename, h.result?]
          split
          · exact h.bidFarewell c o.unit
          · exact h
      | _ => exact h

theorem resumeActivity (h : Mirrors ν b l w) (a : Activity) :
    Mirrors ν b (l.resumeActivity a) (w.resumeActivity (a.rename ν)) := by
  cases a with
  | call i => exact h
  | operation c => exact h.resume c

theorem innerOf (h : Mirrors ν b l w) (a : Activity) :
    w.innerOf (a.rename ν) = (l.innerOf a).map (Inner.rename ν) := by
  cases a with
  | call i => rfl
  | operation c =>
      simp only [World.innerOf, Activity.rename, h.operation]
      cases l.operations[c]? with
      | none => rfl
      | some o =>
          obtain ⟨u, thread, s⟩ := o
          cases s <;> rfl

end Mirrors

/-- A call that waits after its turn goes on waiting. -/
theorem resumeActivity_of_isWaiting {i : Inner} {a : Activity} (inner : w.innerOf a = some i)
    {t : Transaction} (there : w.transactions[i.transaction]? = some t)
    (waits : t.isWaiting i.call = true) : w.resumeActivity a = w := by
  have out : w.result? i = none := by
    cases returned : w.result? i with
    | none => rfl
    | some r =>
        rw [isWaiting_of_result? returned there] at waits
        cases waits
  cases a with
  | call => rfl
  | operation c =>
      simp only [resumeActivity, resume]
      cases running : w.operations[c]? with
      | none => rfl
      | some o =>
          obtain ⟨u, thread, s⟩ := o
          simp only [innerOf, running, Option.bind_eq_bind, Option.bind_some] at inner
          cases s with
          | leaving | discarding | completing | yielding | surrender =>
              obtain rfl := Option.some.inj inner
              simp only [out]
          | _ => rfl

namespace Mirrors

/-- A call takes a turn in the same way on both sides, unless it is to wait after that. -/
theorem onInner (h : Mirrors ν b l w) (a : Activity) {f : Transaction → Nat → Transaction}
    (same : ∀ t n i, (f t i).timeless n = f (t.timeless n) i)
    (awake : (l.onInner a f).isAwake = true) :
    Mirrors ν b (l.onInner a f) (w.onInner (a.rename ν) f) := by
  simp only [World.onInner, h.innerOf] at awake ⊢
  cases inner : l.innerOf a with
  | none => exact h
  | some i =>
      simp only [Option.map_some, inner] at awake ⊢
      refine Mirrors.resumeActivity (h.modifyTransaction i.transaction fun t there => ?_) a
      have calm : ((f (t.timeless i.transaction) i.call).settle l.now i.call).isWaiting i.call =
          false := by
        rw [Bool.eq_false_iff]
        intro waits
        have there' : (l.modifyTransaction i.transaction fun t =>
            (f t i.call).settle l.now i.call).transactions[i.transaction]? =
              some ((f (t.timeless i.transaction) i.call).settle l.now i.call) := by
          simp [World.modifyTransaction, there]
        rw [resumeActivity_of_isWaiting (w := l.modifyTransaction i.transaction _)
          inner there' waits] at awake
        rw [isWaiting_of_isAwake awake there'] at waits
        cases waits
      rw [h.now] at calm ⊢
      rw [← same] at calm
      change ((f t i.call).settle w.now i.call).timeless i.transaction = _
      rw [Transaction.timeless_settle _ _ _ _ calm, same]

theorem answerOperation (h : Mirrors ν b l w) (c : Nat) (o : Operation) (reply : Reply)
    (awake : (l.answerOperation c o reply).isAwake = true) :
    Mirrors ν b (l.answerOperation c o reply)
      (w.answerOperation (ν.operation c) (o.rename ν) reply) := by
  obtain ⟨u, thread, s⟩ := o
  cases s with
  | admission =>
      cases reply with
      | allowed yes => exact h.admitted c u thread yes
      | _ => exact h
  | permission dropping =>
      cases reply with
      | allowed yes => exact h.permitted c u dropping yes
      | _ => exact h
  | work scope =>
      cases reply with
      | response r =>
          cases r with
          | data => exact h.workSucceeded c u scope awake
          | error e => exact h.workFailed c u scope e
      | _ => exact h
  | disposal =>
      cases reply with
      | done => exact h.resourcesDisposed c u
      | _ => exact h
  | rollback | farewell | welcome =>
      cases reply with
      | done => exact h.moveTo c (.done .returned)
      | _ => exact h
  | _ => exact h

/-- An operation, if there is one, is answered in the same way on both sides. -/
theorem answerAt (h : Mirrors ν b l w) (c : Nat) (reply : Reply)
    (awake : (match l.operations[c]? with
      | some o => l.answerOperation c o reply
      | none => l).isAwake = true) :
    Mirrors ν b
      (match l.operations[c]? with
        | some o => l.answerOperation c o reply
        | none => l)
      (match w.operations[ν.operation c]? with
        | some o => w.answerOperation (ν.operation c) o reply
        | none => w) := by
  rw [h.operation]
  cases running : l.operations[c]? with
  | none => exact h
  | some o =>
      rw [running] at awake
      exact h.answerOperation c o reply awake

theorem answer (h : Mirrors ν b l w) (a : Activity) (reply : Reply)
    (awake : (l.answer a reply).isAwake = true) :
    Mirrors ν b (l.answer a reply) (w.answer (a.rename ν) reply) := by
  cases reply with
  | vote v =>
      exact h.onInner a (f := fun t i => t.vote i v) (fun t n i => t.timeless_vote n i v) awake
  | done =>
      have inner := h.innerOf a
      cases found : l.innerOf a with
      | some i =>
          simp only [World.answer, inner, found, Option.map_some] at awake ⊢
          exact h.onInner a (f := fun t i => t.acknowledge i)
            (fun t n i => t.timeless_acknowledge n i) awake
      | none =>
          cases a with
          | call => cases found
          | operation c =>
              simp only [Activity.rename] at inner
              simp only [World.answer, Activity.rename, inner, found, Option.map_none] at awake ⊢
              exact h.answerAt c .done awake
  | allowed yes =>
      cases a with
      | call => exact h
      | operation c => exact h.answerAt c (.allowed yes) awake
  | response r =>
      cases a with
      | call => exact h
      | operation c => exact h.answerAt c (.response r) awake

end Mirrors

/-! ## Actions -/

/-- The action is one that a part of the world can take for itself: no time passes, and no unit is
rolled back that there is not. -/
def Action.isLocal (l : World) : Action → Bool
  | rollback u _ => u < l.units.length
  | tick _ => false
  | _ => true

/-- An action is taken in the same way on both sides, unless a call is to wait after it. -/
theorem Mirrors.perform (h : Mirrors ν b l w) {a : Action} (here : a.isLocal l = true)
    (awake : (l.perform a).isAwake = true) :
    Mirrors ν b (l.perform a) (w.perform (a.rename ν)) := by
  cases a with
  | openUnit o => exact h.openUnit o
  | commit u thread => exact h.beginCommit u thread
  | release u thread dropping => exact h.beginRelease u thread dropping
  | rollback u thread =>
      exact h.push (o := ⟨u, thread, .rollback⟩) (by simpa [Action.isLocal] using here)
  | openTransaction localId options => exact h.openTransaction localId options
  | enlist n participant =>
      exact h.modifyTransaction n fun t _ => t.timeless_enlist n participant
  | issue n mode => exact h.modifyTransaction n fun t _ => t.timeless_issue n mode
  | call n purpose =>
      exact (h.call n purpose fun t there => isWaiting_of_isAwake awake there _).1
  | answer a reply => exact h.answer a reply awake
  | turn a => exact h.onInner a (f := fun t _ => t) (fun _ _ _ => rfl) awake
  | rouse a =>
      exact h.onInner a (f := fun t i => t.rouse i) (fun t n i => t.timeless_rouse n i) awake
  | tick nanos => cases here

end NestedWork.World
