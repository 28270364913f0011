import NestedWork.Proofs.World.Lifecycle
import NestedWork.Proofs.World.Wake

/-!
# What an operation on a unit stays within

An operation on a unit changes the status of no other unit, and it changes no options. What a
transaction was opened with, it keeps, unless its timeout is lowered. No call is left about to wake
the commits that wait.

## Implementation notes

Openings, which lower timeouts, are left out here. All other functions of the world are gone through
one by one, since the steps that they are made of no longer tell which operation has caused them.
-/

namespace NestedWork

namespace Transaction

variable {t t₁ : Transaction} {now : Instant} {p p' : Point} {i : Nat}

/-- The isolation level and the timeout that a transaction runs with. -/
def terms (t : Transaction) : IsolationLevel × Duration := (t.isolation, t.timeout)

/-- The action shortens the timeout. -/
def Action.isLower : Action → Bool
  | .begin (.lower _) => true
  | _ => false

theorem Moves.terms_eq {votes : List Event} (moves : t.Moves now p votes t₁ p') :
    t₁.terms = t.terms := by
  cases moves <;> rfl

theorem Enters.terms_eq {purpose : Purpose} (enters : t.Enters purpose t₁ p)
    (other : Action.isLower (.begin purpose) = false) : t₁.terms = t.terms := by
  cases enters with
  | forsake | release => simp only [Transaction.strike, discount_eq, terms]
  | shorten => cases other
  | _ => rfl

/-- Whatever happens to a transaction leaves its terms, unless its timeout is shortened. -/
theorem terms_perform (t : Transaction) (now : Instant) {a : Action} (other : a.isLower = false) :
    (t.perform now a).terms = t.terms := by
  cases meant : a.call? with
  | some j =>
      by_cases served : ∃ p, t.point? j = some p ∧ a.serves j p
      · obtain ⟨p, reached, served⟩ := served
        obtain ⟨votes, t₁, p', moves, eq, -⟩ := exists_moves t now reached served
        rw [eq]
        exact moves.terms_eq
      · rw [(perform_eq_self t now meant fun p reached => by
          simpa using fun h => served ⟨p, reached, h⟩).1]
  | none =>
      cases a with
      | enlist participant =>
          simp only [perform, enlist]
          split <;> rfl
      | issue mode =>
          rw [perform, issue_eq]
          rfl
      | begin purpose => exact (enters_enter t purpose).terms_eq other
      | advance | vote | acknowledge | rouse => cases meant

theorem terms_runAt (t : Transaction) (now : Instant) {actions : List Action}
    (other : ∀ a ∈ actions, a.isLower = false) : (t.runAt now actions).terms = t.terms := by
  induction actions generalizing t with
  | nil => rfl
  | cons a rest ih =>
      rw [runAt_cons, ih _ fun b mem => other b (List.mem_cons_of_mem a mem)]
      exact t.terms_perform now (other a (List.mem_cons_self ..))

theorem isLower_strides (i : Nat) : ∀ a ∈ strides i, a.isLower = false := by
  intro a mem
  rw [List.eq_of_mem_replicate mem]
  rfl

end Transaction

namespace UnitOfWork

/-- What nothing but an opening changes of a unit. -/
def footing (x : UnitOfWork) : List Nat × TransactionOptions := (x.lineage, x.options)

/-- The isolation level and the timeout that a unit reports. -/
def terms (x : UnitOfWork) : IsolationLevel × Duration := (x.options.isolation, x.options.timeout)

theorem lineage_eq_of_footing {x x' : UnitOfWork} (same : x'.footing = x.footing) :
    x'.lineage = x.lineage := congrArg Prod.fst same

theorem options_eq_of_footing {x x' : UnitOfWork} (same : x'.footing = x.footing) :
    x'.options = x.options := congrArg Prod.snd same

end UnitOfWork

namespace World

variable {w w₁ w₂ : World} {c u n : Nat} {f : UnitOfWork → UnitOfWork} {scope : Scope}

/-- The terms of a transaction. -/
def termsOf? (w : World) (n : Nat) : Option (IsolationLevel × Duration) :=
  (w.transactions[n]?).map Transaction.terms

/-- No call on any transaction is about to wake the commits that wait. -/
def Quiet (w : World) : Prop :=
  ∀ (n : Nat) (t : Transaction), w.transactions[n]? = some t → t.Quiet

/-- The world changes as an operation on a unit may change it. -/
structure Within (u : Nat) (w w' : World) : Prop where
  footings : w'.units.map UnitOfWork.footing = w.units.map UnitOfWork.footing
  statuses : ∀ {v : Nat}, v ≠ u → statusOf? v w' = statusOf? v w
  terms : ∀ {n : Nat} {t : Transaction}, w.transactions[n]? = some t → w'.termsOf? n = some t.terms
  /-- A transaction that a unit comes to hold has the terms of the unit. -/
  slots : ∀ {v n : Nat} {x' : UnitOfWork}, w'.units[v]? = some x' → x'.slot = .live n →
    (∃ x, w.units[v]? = some x ∧ x.slot = .live n) ∨ w'.termsOf? n = some x'.terms
  quiet : w.Quiet → w'.Quiet

namespace Within

theorem refl (u : Nat) (w : World) : Within u w w where
  footings := rfl
  statuses := fun _ => rfl
  terms := fun transaction => by rw [termsOf?, transaction, Option.map_some]
  slots := fun unit live => .inl ⟨_, unit, live⟩
  quiet := id

/-- A unit is there before and after, with the same lineage and options. -/
theorem back (h : Within u w w₁) {v : Nat} {x' : UnitOfWork} (unit : w₁.units[v]? = some x') :
    ∃ x, w.units[v]? = some x ∧ x'.footing = x.footing := by
  have same := congrArg (fun footings => footings[v]?) h.footings
  simp only [List.getElem?_map, unit, Option.map_some] at same
  obtain ⟨x, before, eq⟩ := Option.map_eq_some_iff.mp same.symm
  exact ⟨x, before, eq.symm⟩

theorem trans (h : Within u w w₁) (h' : Within u w₁ w₂) : Within u w w₂ where
  footings := h'.footings.trans h.footings
  statuses := fun ne => (h'.statuses ne).trans (h.statuses ne)
  terms := by
    intro n t transaction
    obtain ⟨t₁, between, eq⟩ := Option.map_eq_some_iff.mp (h.terms transaction)
    rw [h'.terms between, eq]
  slots := by
    intro v n x₂ unit live
    rcases h'.slots unit live with ⟨x₁, between, live₁⟩ | same
    · refine (h.slots between live₁).imp_right fun terms => ?_
      obtain ⟨t₁, transaction, eq⟩ := Option.map_eq_some_iff.mp terms
      obtain ⟨x₁', between', footing⟩ := h'.back unit
      obtain rfl := Option.some.inj (between.symm.trans between')
      rw [h'.terms transaction, eq, UnitOfWork.terms, UnitOfWork.terms,
        UnitOfWork.options_eq_of_footing footing]
    · exact .inr same
  quiet := fun before => h'.quiet (h.quiet before)

/-- Only the units and the transactions matter. -/
theorem still (h : Within u w w₁) (units : w₂.units = w₁.units)
    (transactions : w₂.transactions = w₁.transactions) : Within u w w₂ where
  footings := units ▸ h.footings
  statuses := by
    intro v ne
    rw [statusOf?, units]
    exact h.statuses ne
  terms := by
    intro n t transaction
    rw [termsOf?, transactions]
    exact h.terms transaction
  slots := by
    intro v n x' unit live
    rw [termsOf?, transactions]
    exact h.slots (units ▸ unit) live
  quiet := by
    intro before n t transaction
    exact h.quiet before n t (transactions ▸ transaction)

end Within

/-! ## Parts -/

theorem map_modify_of_eq {α β : Type} {g : α → β} {f : α → α} (same : ∀ x, g (f x) = g x)
    (xs : List α) (i : Nat) : (xs.modify i f).map g = xs.map g := by
  apply List.ext_getElem?
  intro j
  simp only [List.getElem?_map, List.getElem?_modify]
  cases xs[j]? with
  | none => rfl
  | some x => by_cases eq : i = j <;> simp [eq, same]

theorem statusOf?_modifyUnit_ne {v : Nat} (ne : v ≠ u) :
    statusOf? v (w.modifyUnit u f) = statusOf? v w := by
  simp [statusOf?, modifyUnit, ne.symm]

theorem within_modifyUnit (w : World) (u : Nat) (same : ∀ x, (f x).footing = x.footing)
    (slot : ∀ x, (f x).slot = x.slot ∨ (f x).slot = .released) :
    Within u w (w.modifyUnit u f) where
  footings := map_modify_of_eq same w.units u
  statuses := statusOf?_modifyUnit_ne
  terms := (Within.refl u w).terms
  slots := by
    intro v n x' unit live
    left
    by_cases eq : u = v
    · subst eq
      obtain ⟨x, before, rfl⟩ : ∃ x, w.units[u]? = some x ∧ f x = x' := by
        simpa [modifyUnit] using unit
      rcases slot x with kept | released
      · exact ⟨x, before, kept ▸ live⟩
      · cases released.symm.trans live
    · exact ⟨x', by simpa [modifyUnit, eq] using unit, live⟩
  quiet := id

/-- What leaves no call of one transaction about to wake others leaves none of any. -/
theorem Quiet.modifyTransaction (h : w.Quiet) (n : Nat) {f : Transaction → Transaction}
    (quiet : ∀ t, t.Quiet → (f t).Quiet) : (w.modifyTransaction n f).Quiet := by
  intro m t' transaction
  by_cases eq : n = m
  · subst eq
    obtain ⟨t, before, rfl⟩ : ∃ t, w.transactions[n]? = some t ∧ f t = t' := by
      simpa [World.modifyTransaction] using transaction
    exact quiet t (h n t before)
  · exact h m t' (by simpa [World.modifyTransaction, eq] using transaction)

theorem within_modifyTransaction (u : Nat) (w : World) (n : Nat) {f : Transaction → Transaction}
    (same : ∀ t, (f t).terms = t.terms) (quiet : ∀ t, t.Quiet → (f t).Quiet) :
    Within u w (w.modifyTransaction n f) where
  footings := rfl
  statuses := fun _ => rfl
  terms := by
    intro m t transaction
    by_cases eq : n = m <;> simp [termsOf?, modifyTransaction, transaction, eq, same]
  slots := fun unit live => .inl ⟨_, unit, live⟩
  quiet := fun before => before.modifyTransaction n quiet

/-- Whoever makes a call takes it past the point at which it wakes others. -/
theorem Quiet.call (h : w.Quiet) (n : Nat) (purpose : Purpose) : (w.call n purpose).1.Quiet := by
  intro m t' after
  by_cases eq : n = m
  · subst eq
    obtain ⟨t, transaction, rfl⟩ : ∃ t, w.transactions[n]? = some t ∧
        (t.begin purpose).settle w.now t.calls.length = t' := by
      cases transaction : w.transactions[n]? with
      | none => simp [World.call, World.modifyTransaction, transaction] at after
      | some t =>
          refine ⟨t, rfl, ?_⟩
          simpa [World.call, World.modifyTransaction, transaction] using after
    exact ((h n t transaction).begin purpose).settle w.now
  · exact h m t' (by simpa [World.call, World.modifyTransaction, eq] using after)

theorem within_call (u : Nat) (w : World) (n : Nat) (purpose : Purpose)
    (other : Transaction.Action.isLower (.begin purpose) = false) :
    Within u w (w.call n purpose).1 where
  footings := rfl
  statuses := fun _ => rfl
  terms := by
    intro m t transaction
    have same (t : Transaction) : (t.runAt w.now (w.callSteps n purpose)).terms = t.terms := by
      apply t.terms_runAt
      intro a mem
      rcases List.mem_cons.mp mem with rfl | mem
      · exact other
      · exact Transaction.isLower_strides _ a mem
    rw [call_eq]
    by_cases eq : n = m
    · subst eq
      simp [termsOf?, transact, modifyTransaction, transaction, same]
    · simp [termsOf?, transact, modifyTransaction, transaction, eq]
  slots := fun unit live => .inl ⟨_, unit, live⟩
  quiet := fun before => before.call n purpose

theorem within_openTransaction (u : Nat) (w : World) (localId : String)
    (options : TransactionOptions) : Within u w (w.openTransaction localId options) where
  footings := rfl
  statuses := fun _ => rfl
  terms := by
    intro n t transaction
    rw [termsOf?, openTransaction,
      List.getElem?_append_left (List.getElem?_eq_some_iff.mp transaction).1, transaction,
      Option.map_some]
  slots := fun unit live => .inl ⟨_, unit, live⟩
  quiet := by
    intro before n t after
    rcases transactions_openTransaction after with old | rfl
    · exact before n t old
    · exact Transaction.quiet_create _ _ _ _ _

/-- A root opens a transaction with its own terms. -/
theorem within_foundAt (u : Nat) {r : Nat} {y : UnitOfWork} (root : w.units[r]? = some y) :
    Within u w (w.foundAt r y) where
  footings := map_modify_of_eq
    (f := fun y => { y with slot := .live w.transactions.length, handles := y.handles + 1 })
    (fun _ => rfl) w.units r
  statuses := by
    intro v _
    by_cases eq : r = v
    · subst eq
      simp [statusOf?, foundAt, modifyUnit, openTransaction, root]
    · simp [statusOf?, foundAt, modifyUnit, openTransaction, eq]
  terms := (within_openTransaction u w y.transactionId y.options).terms
  slots := by
    intro v n x' unit live
    obtain ⟨x, before, -, slot⟩ := back_foundAt unit
    rcases slot with ⟨rfl, slot⟩ | ⟨-, slot⟩
    · right
      obtain rfl := Slot.live.inj (slot.symm.trans live)
      have here : (w.foundAt v y).units[v]? = some
          { y with slot := .live w.transactions.length, handles := y.handles + 1 } := by
        simp [foundAt, modifyUnit, openTransaction, root]
      obtain rfl := Option.some.inj (here.symm.trans unit)
      simp [termsOf?, foundAt, modifyUnit, openTransaction, Transaction.create, Transaction.terms,
        UnitOfWork.terms]
    · exact .inl ⟨x, before, slot ▸ live⟩
  quiet := (within_openTransaction u w y.transactionId y.options).quiet

/-! ## Commits -/

theorem within_finishCommit (w : World) (c u : Nat) (result : Response Unit) :
    Within u w (w.finishCommit c u result) :=
  (w.within_modifyUnit u (f := UnitOfWork.finish) (fun _ => rfl) fun _ => .inl rfl).still rfl rfl

theorem within_yieldHandle (w : World) (c u : Nat) (scope : Scope) (result : Response Unit) :
    Within u w (w.yieldHandle c u scope result) := by
  unfold yieldHandle
  split
  next =>
    have given := w.within_modifyUnit u (f := fun x => { x with handles := x.handles - 1 })
      (fun _ => rfl) fun _ => .inl rfl
    apply given.trans
    dsimp only
    split
    next =>
      have ended := within_call u (w.modifyUnit u fun x => { x with handles := x.handles - 1 })
        scope.transaction (.abort .ownerReleased) rfl
      apply ended.trans
      split
      · exact within_finishCommit ..
      · exact (Within.refl u _).still rfl rfl
    next => exact within_finishCommit ..
  next => exact within_finishCommit ..

theorem within_discardDependent (w : World) (c u : Nat) (scope : Scope) (e : ResponseError) :
    Within u w (w.discardDependent c u scope e) := by
  unfold discardDependent
  split
  next => exact within_yieldHandle ..
  next k _ =>
    apply (within_call u w scope.transaction (.release k false) rfl).trans
    dsimp only
    split
    · exact within_yieldHandle ..
    · exact (Within.refl u _).still rfl rfl

theorem within_setStatus (w : World) (u : Nat) (status : Status) :
    Within u w (w.modifyUnit u fun x => { x with status }) :=
  w.within_modifyUnit u (fun _ => rfl) fun _ => .inl rfl

theorem within_workFailed (w : World) (c u : Nat) (scope : Scope) (e : ResponseError) :
    Within u w (w.workFailed c u scope e) := by
  apply (w.within_setStatus u .aborted).trans
  have left := within_call u (w.modifyUnit u fun x => { x with status := .aborted })
    scope.transaction (.abort .scopeNotCompleted) rfl
  apply left.trans
  unfold workFailed
  dsimp only
  split
  · exact within_discardDependent ..
  · exact (Within.refl u _).still rfl rfl

theorem within_transactionReturned (w : World) (c u : Nat) (scope : Scope)
    (r : Except Aborted Unit) : Within u w (w.transactionReturned c u scope r) := by
  cases r with
  | ok => exact within_yieldHandle ..
  | error cause => exact (w.within_setStatus u .aborted).trans (within_yieldHandle ..)

theorem within_completeDependent (u : Nat) (w : World) (scope : Scope) :
    Within u w (w.completeDependent scope) := by
  unfold completeDependent
  split
  · exact .refl u w
  · exact within_call u w scope.transaction _ rfl

theorem within_workSucceeded (w : World) (c u : Nat) (scope : Scope) :
    Within u w (w.workSucceeded c u scope) := by
  apply (w.within_setStatus u .committed).trans
  apply (within_completeDependent u _ scope).trans
  unfold workSucceeded
  dsimp only
  split
  next =>
    apply (within_call u _ scope.transaction .commit rfl).trans
    split
    · exact within_transactionReturned ..
    · exact (Within.refl u _).still rfl rfl
  next => exact within_finishCommit ..

theorem within_enterTransaction (u : Nat) (w : World) (r : Nat) :
    Within u w (w.enterTransaction r).1 := by
  unfold enterTransaction
  split
  next => exact .refl u w
  next y root =>
    split
    · exact .refl u w
    · exact .refl u w
    · exact within_foundAt u root

theorem within_enterScope (w : World) (u : Nat) (x : UnitOfWork) (n thread : Nat) :
    Within u w (w.enterScope u x n thread).1 := by
  have enter (w : World) : Within u w (w.modifyUnit u fun x =>
      { x with
        status := .active
        current := some n
        handles := if x.isRoot then x.handles + 1 else x.handles }) :=
    w.within_modifyUnit u (fun _ => rfl) fun _ => .inl rfl
  by_cases away : thread ≠ x.thread
  · have issue := within_modifyTransaction u w n (f := fun y => y.issue .blocking)
      (fun t => t.terms_perform w.now (a := .issue .blocking) rfl)
      fun _ quiet => quiet.issue .blocking
    simp only [enterScope, if_pos away]
    exact issue.trans (enter _)
  · simp only [enterScope, if_neg away]
    exact enter w

theorem within_admitted (w : World) (c u thread : Nat) (allowed : Bool) :
    Within u w (w.admitted c u thread allowed) := by
  unfold admitted
  split
  next => exact .refl u w
  next x unit =>
    split
    next => exact within_finishCommit ..
    next =>
      have opened := within_enterTransaction u w (w.rootOf u)
      generalize w.enterTransaction (w.rootOf u) = entered at opened
      obtain ⟨w₁, found⟩ := entered
      apply opened.trans
      cases found with
      | none => exact within_finishCommit ..
      | some n => exact (within_enterScope w₁ u x n thread).still rfl rfl

theorem within_beginCommit (w : World) (u thread : Nat) :
    Within u w (w.beginCommit u thread) := by
  unfold beginCommit
  split
  next => exact .refl u w
  next =>
    split
    next => exact (Within.refl u w).still rfl rfl
    next =>
      have accepted := w.within_modifyUnit u (f := fun x => { x with committing := true })
        (fun _ => rfl) fun _ => .inl rfl
      have pushed : Within u w ((w.modifyUnit u fun x => { x with committing := true }).push
          ⟨u, thread, .admission⟩) := accepted.still rfl rfl
      dsimp only
      split
      · exact pushed.trans (within_admitted ..)
      · exact pushed

/-! ## Releases -/

theorem within_bidFarewell (w : World) (c u : Nat) : Within u w (w.bidFarewell c u) := by
  unfold bidFarewell
  split
  next => exact .refl u w
  next => split <;> exact (Within.refl u w).still rfl rfl

theorem within_resourcesDisposed (w : World) (c u : Nat) :
    Within u w (w.resourcesDisposed c u) := by
  unfold resourcesDisposed
  split
  next => exact .refl u w
  next =>
    split
    next => exact within_bidFarewell ..
    next =>
      split
      next n _ =>
        have released := w.within_modifyUnit u
          (f := fun x => { x with slot := .released, handles := x.handles - 1 })
          (fun _ => rfl) fun _ => .inr rfl
        apply released.trans
        dsimp only
        split
        next =>
          apply (within_call u _ n (.abort .ownerReleased) rfl).trans
          split
          · exact within_bidFarewell ..
          · exact (Within.refl u _).still rfl rfl
        next => exact within_bidFarewell ..
      next =>
        have released := w.within_modifyUnit u (f := fun x => { x with slot := .released })
          (fun _ => rfl) fun _ => .inr rfl
        exact released.trans (within_bidFarewell ..)

theorem within_permitted (w : World) (c u : Nat) (dropping allowed : Bool) :
    Within u w (w.permitted c u dropping allowed) := by
  unfold permitted
  split
  next => exact .refl u w
  next =>
    split
    · exact (Within.refl u w).still rfl rfl
    · have marked := w.within_modifyUnit u (f := fun x => { x with disposed := true })
        (fun _ => rfl) fun _ => .inl rfl
      exact marked.still rfl rfl

theorem within_beginRelease (w : World) (u thread : Nat) (dropping : Bool) :
    Within u w (w.beginRelease u thread dropping) := by
  unfold beginRelease
  split
  next => exact .refl u w
  next =>
    split
    next => exact (Within.refl u w).still rfl rfl
    next =>
      have pushed : Within u w (w.push ⟨u, thread, .permission dropping⟩) :=
        (Within.refl u w).still rfl rfl
      dsimp only
      split
      · exact pushed.trans (within_permitted ..)
      · exact pushed

/-! ## Operations and actions -/

/-- The unit of an operation, if there is one. -/
def unitOf (w : World) : Activity → Nat
  | .operation c => ((w.operations[c]?).map Operation.unit).getD 0
  | .call _ => 0

theorem unitOf_operation {o : Operation} (running : w.operations[c]? = some o) :
    w.unitOf (.operation c) = o.unit := by
  rw [unitOf, running]
  rfl

theorem within_resume (w : World) (c : Nat) :
    Within (w.unitOf (.operation c)) w (w.resume c) := by
  unfold resume
  split
  next => exact .refl _ w
  next o running =>
    rw [unitOf_operation running]
    split
    · split
      · exact within_discardDependent ..
      · exact .refl _ w
    · split
      · exact within_yieldHandle ..
      · exact .refl _ w
    · split
      · exact within_transactionReturned ..
      · exact .refl _ w
    · split
      · exact within_finishCommit ..
      · exact .refl _ w
    · split
      · exact within_bidFarewell ..
      · exact .refl _ w
    · exact .refl _ w

/-- Whatever the call of an operation comes to, the operation stays within its unit. -/
theorem within_onInner (w : World) (a : Activity) {f : Transaction → Nat → Transaction}
    (same : ∀ t i, (f t i).terms = t.terms) (quiet : ∀ t i, t.Quiet → (f t i).QuietBut i) :
    Within (w.unitOf a) w (w.onInner a f) := by
  unfold onInner
  split
  next => exact .refl _ w
  next i _ =>
    have settled := within_modifyTransaction (w.unitOf a) w i.transaction
      (f := fun t => (f t i.call).settle w.now i.call) (fun t => by
        rw [Transaction.settle_eq, Transaction.terms_runAt _ _ (Transaction.isLower_strides _),
          same])
      fun t before => (quiet t i.call before).settle w.now
    cases a with
    | call => exact settled
    | operation c =>
        have resumed := within_resume
          (w.modifyTransaction i.transaction fun t => (f t i.call).settle w.now i.call) c
        exact settled.trans resumed

theorem within_answerOperation (w : World) (c : Nat) (o : Operation) (reply : Reply) :
    Within o.unit w (w.answerOperation c o reply) := by
  unfold answerOperation
  split
  · exact within_admitted ..
  · exact within_permitted ..
  · exact within_workSucceeded ..
  · exact within_workFailed ..
  · exact within_resourcesDisposed ..
  · exact (Within.refl _ w).still rfl rfl
  · exact (Within.refl _ w).still rfl rfl
  · exact (Within.refl _ w).still rfl rfl
  · exact .refl _ w

theorem within_answer (w : World) (a : Activity) (reply : Reply) :
    Within (w.unitOf a) w (w.answer a reply) := by
  have operation {c : Nat} {w' : World}
      (begun : ∀ o, w.operations[c]? = some o → w' = w.answerOperation c o reply)
      (absent : w.operations[c]? = none → w' = w) : Within (w.unitOf (.operation c)) w w' := by
    cases running : w.operations[c]? with
    | none =>
        rw [absent running]
        exact .refl _ w
    | some o =>
        rw [begun o running, unitOf_operation running]
        exact within_answerOperation ..
  cases reply with
  | vote v =>
      exact w.within_onInner a (f := fun t i => t.vote i v)
        (fun t i => t.terms_perform w.now (a := .vote i v) rfl)
        fun _ i quiet => (quiet.quietBut i).perform w.now (a := .vote i v) rfl
  | done =>
      have told := w.within_onInner a (f := fun t i => t.acknowledge i)
        (fun t i => t.terms_perform w.now (a := .acknowledge i) rfl)
        fun _ i quiet => (quiet.quietBut i).perform w.now (a := .acknowledge i) rfl
      cases inner : w.innerOf a with
      | some i => simpa only [answer, inner] using told
      | none =>
          cases a with
          | call => cases inner
          | operation c =>
              exact operation (fun o running => by simp only [answer, inner, running])
                fun running => by simp only [answer, inner, running]
  | allowed yes =>
      cases a with
      | call => exact .refl _ w
      | operation c =>
          exact operation (fun o running => by simp only [answer, running])
            fun running => by simp only [answer, running]
  | response r =>
      cases a with
      | call => exact .refl _ w
      | operation c =>
          exact operation (fun o running => by simp only [answer, running])
            fun running => by simp only [answer, running]

theorem within_turn (w : World) (a : Activity) : Within (w.unitOf a) w (w.turn a) :=
  w.within_onInner a (f := fun t _ => t) (fun _ _ => rfl) fun _ i quiet => quiet.quietBut i

theorem within_rouse (w : World) (a : Activity) : Within (w.unitOf a) w (w.rouse a) :=
  w.within_onInner a (f := fun t i => t.rouse i)
    (fun t i => t.terms_perform w.now (a := .rouse i) rfl)
    fun _ i quiet => (quiet.quietBut i).perform w.now (a := .rouse i) rfl

/-- Every action but an opening, or a client's own call to shorten a timeout, stays within the unit
that it deals with. -/
theorem exists_within (w : World) {a : Action} (opening : ∀ o, a ≠ .openUnit o)
    (lowering : ∀ n timeout, a ≠ .call n (.lower timeout)) : ∃ u, Within u w (w.perform a) := by
  cases a with
  | openUnit o => exact absurd rfl (opening o)
  | commit u thread => exact ⟨u, w.within_beginCommit u thread⟩
  | release u thread dropping => exact ⟨u, w.within_beginRelease u thread dropping⟩
  | rollback u thread => exact ⟨u, (Within.refl u w).still rfl rfl⟩
  | openTransaction localId options => exact ⟨0, within_openTransaction 0 w localId options⟩
  | enlist n participant =>
      exact ⟨0, within_modifyTransaction 0 w n
        (fun t => t.terms_perform w.now (a := .enlist participant) rfl)
        fun _ quiet => quiet.enlist participant⟩
  | issue n mode =>
      exact ⟨0, within_modifyTransaction 0 w n
        (fun t => t.terms_perform w.now (a := .issue mode) rfl) fun _ quiet => quiet.issue mode⟩
  | call n purpose =>
      refine ⟨0, within_call 0 w n purpose ?_⟩
      cases purpose with
      | lower timeout => exact absurd rfl (lowering n timeout)
      | _ => rfl
  | answer a reply => exact ⟨_, w.within_answer a reply⟩
  | turn a => exact ⟨_, w.within_turn a⟩
  | rouse a => exact ⟨_, w.within_rouse a⟩
  | tick nanos => exact ⟨0, (Within.refl 0 w).still rfl rfl⟩

/-- The operation that an action takes on. -/
def Action.operation? : Action → Option Nat
  | .answer (.operation c) _ | .turn (.operation c) | .rouse (.operation c) => some c
  | _ => none

/-- Whatever takes an operation on stays within its unit. -/
theorem within_perform {o : Operation} {a : Action} (running : w.operations[c]? = some o)
    (acts : a.operation? = some c) : Within o.unit w (w.perform a) := by
  rw [← unitOf_operation running]
  cases a with
  | answer activity reply =>
      cases activity with
      | operation => cases acts; exact w.within_answer _ reply
      | call => cases acts
  | turn activity =>
      cases activity with
      | operation => cases acts; exact w.within_turn _
      | call => cases acts
  | rouse activity =>
      cases activity with
      | operation => cases acts; exact w.within_rouse _
      | call => cases acts
  | _ => cases acts

end World

end NestedWork
