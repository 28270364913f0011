import NestedWork.Proofs.World.Closed
import NestedWork.Proofs.World.Stem
import NestedWork.Proofs.World.Within

/-!
# Commits return

Once the capability of a unit has answered and the fate of the transaction is decided, the commit of
the unit waits for nobody but the participants. Every turn that it gets brings it nearer to its
return, and nothing that others do takes it away from that.

## Implementation notes

The turns that are left are those of the call that the commit waits for, and one more to go on after
it. What a commit does on a closed transaction after that call takes no turn of its own.
-/

namespace NestedWork

namespace Transaction

variable {t t' : Transaction} {now : Instant} {events : List Event} {actions : List Action}

/-- The fate of the transaction is decided and no commit waits any more. -/
structure IsOver (t : Transaction) : Prop where
  closed : t.status ≠ .active
  woken : ∀ (i : Nat) (p : Point), t.point? i = some p → p.isParked = false

/-- Every step leaves it so. -/
theorem IsOver.step (h : t.IsOver) (consistent : t.Consistent) (s : t.Step now events t') :
    t'.IsOver := by
  constructor
  · exact s.closed consistent h.closed
  · intro i p reached
    rcases s.point?_cases reached with ⟨q, before, rfl | rfl⟩ | ⟨q, votes, t₁, -, moves, -⟩ |
      ⟨purpose, t₁, -, enters, -⟩
    · exact h.woken i p before
    · simp
    · cases moves with
      | park active => exact absurd active h.closed
      | _ => rfl
    · cases enters <;> rfl

theorem IsOver.runAt (h : t.IsOver) (consistent : t.Consistent) (now : Instant)
    (actions : List Action) : (t.runAt now actions).IsOver := by
  have both := run_induction (motive := fun t => t.Consistent ∧ t.IsOver)
    (fun h s => ⟨h.1.step s, h.2.step h.1 s⟩) ⟨consistent, h⟩ (actions.map fun a => (now, a))
  exact both.2

section Call

variable {i : Nat} {p : Point}

theorem lt_of_point? (reached : t.point? i = some p) : i < t.calls.length := by
  obtain ⟨call, hc, -⟩ := Option.map_eq_some_iff.mp reached
  exact (List.getElem?_eq_some_iff.mp hc).1

theorem remaining_runAt_le (h : t.Consistent) (closed : t.status ≠ .active)
    (reached : t.point? i = some p) (now : Instant) (actions : List Action) :
    (t.runAt now actions).remaining i ≤ t.remaining i := by
  have le := remaining_run_le h closed (lt_of_point? reached) (actions.map fun a => (now, a))
  exact Nat.le_trans (Nat.le_add_left ..) le

/-- A turn of a call, and whatever comes after it, brings the call nearer to its return. -/
theorem remaining_runAt_lt {a : Action} (h : t.Consistent) (closed : t.status ≠ .active)
    (reached : t.point? i = some p) (now : Instant) (turn : t.isTurn i a = true)
    (actions : List Action) : (t.runAt now (a :: actions)).remaining i < t.remaining i := by
  have le := remaining_run_le h closed (lt_of_point? reached)
    ((now, a) :: actions.map fun a => (now, a))
  have same : t.run ((now, a) :: actions.map fun a => (now, a)) = t.runAt now (a :: actions) := rfl
  simp only [turns, turn, Bool.toNat_true, same] at le
  omega

end Call

end Transaction

namespace Stage

/-- The capability has answered, and the commit is on its way to its return. -/
def isAnswered : Stage → Bool
  | leaving _ _ _ | discarding _ _ _ | completing _ _ | yielding _ _ => true
  | done (.commit (.ok _)) => true
  | _ => false

/-- A commit that has been answered waits for a call or has returned. -/
theorem isAnswered_cases {s : Stage} (answered : s.isAnswered = true) :
    (∃ i, s.inner? = some i ∧ s.isRunning = true) ∨ ∃ r, s = .done (.commit (.ok r)) := by
  cases s with
  | done a =>
      cases a with
      | commit result =>
          cases result with
          | ok r => exact .inr ⟨r, rfl⟩
          | error => cases answered
      | returned => cases answered
  | leaving | discarding | completing | yielding => exact .inl ⟨_, rfl, rfl⟩
  | _ => cases answered

end Stage

namespace World

variable {w w' : World} {l : Label} {c u thread n m : Nat} {x : UnitOfWork} {s s' : Stage}
  {f : UnitOfWork → UnitOfWork} {actions : List Transaction.Action} {scope : Scope} {i : Inner}

/-! ## Nobody waits in vain -/

theorem Quiet.lowerUnit (h : w.Quiet) (u : Nat) (timeout : Duration) :
    (w.lowerUnit u timeout).Quiet := by
  unfold World.lowerUnit
  split
  next => exact h
  next x _ =>
    split
    next => exact h
    next =>
      have same : (w.modifyUnit u fun x => { x with
        options := x.options.withTimeout timeout }).Quiet := h
      dsimp only
      split
      · exact same.call _ _
      · exact same

theorem Quiet.lowerUnits (h : w.Quiet) (units : List Nat) (timeout : Duration) :
    (units.foldl (fun w v => w.lowerUnit v timeout) w).Quiet := by
  induction units generalizing w with
  | nil => exact h
  | cons v rest ih => exact ih (h.lowerUnit v timeout)

theorem Quiet.openUnit (h : w.Quiet) {o : Opening} (opened : w.openUnit o = .ok w') : w'.Quiet := by
  unfold World.openUnit at opened
  split at opened
  next => cases opened
  next options lowered _ =>
    obtain rfl := Except.ok.inj opened
    have lower := h.lowerUnits lowered o.options.timeout
    split <;> exact lower

theorem Quiet.perform (h : w.Quiet) (a : Action) : (w.perform a).Quiet := by
  by_cases opening : ∃ o, a = .openUnit o
  · obtain ⟨o, rfl⟩ := opening
    simp only [World.perform]
    cases opened : w.openUnit o with
    | error => exact h
    | ok w' => exact h.openUnit opened
  · by_cases lowering : ∃ n timeout, a = .call n (.lower timeout)
    · obtain ⟨n, timeout, rfl⟩ := lowering
      exact h.call n _
    · obtain ⟨u, within⟩ := w.exists_within (a := a) (fun o eq => opening ⟨o, eq⟩)
        fun n timeout eq => lowering ⟨n, timeout, eq⟩
      exact within.quiet h

theorem quiet_run (managers : List Manager) (past : List Action) :
    ((initial managers).run past).Quiet := by
  induction past using List.reverseRecOn with
  | nil =>
      intro n t transaction
      cases transaction
  | append_singleton past a ih =>
      rw [run_append]
      exact ih.perform a

/-- No commit waits on a closed transaction after the actions of a run. -/
theorem isOver_run {managers : List Manager} {past : List Action} {t : Transaction}
    (transaction : ((initial managers).run past).transactions[n]? = some t)
    (closed : t.status ≠ .active) : t.IsOver := by
  obtain ⟨options, reachable⟩ := (stemmed_run managers past).lived transaction
  obtain ⟨localId, sequence, createdAt, started, steps, rfl⟩ := reachable.exists_run
  have alert := Transaction.run_induction Transaction.Alert.step
    (Transaction.alert_create localId sequence createdAt started options) steps
  have quiet := quiet_run managers past n _ transaction
  exact ⟨closed, fun i p reached => quiet.not_parked alert closed reached⟩

/-! ## Commits on their way to their return -/

/-- A call was made on a transaction. -/
def Made (w : World) (i : Inner) (n : Nat) : Prop :=
  i.transaction = n ∧ ∃ t p, w.transactions[n]? = some t ∧ t.point? i.call = some p

theorem Made.of_call {t : Transaction} {call : Call} (here : i.transaction = n)
    (transaction : w.transactions[n]? = some t) (hc : t.calls[i.call]? = some call) : w.Made i n :=
  ⟨here, t, call.point, transaction, by simp [Transaction.point?, hc]⟩

theorem Made.step (h : w.Made i n) (step : w.Step l w') : w'.Made i n := by
  obtain ⟨here, t, p, transaction, reached⟩ := h
  obtain ⟨call, hc, -⟩ := Option.map_eq_some_iff.mp reached
  obtain ⟨actions, after⟩ := step.transaction_forth transaction
  obtain ⟨call', hc', -⟩ := t.exists_call_run (actions.map fun a => (w.now, a)) hc
  exact .of_call here after hc'

theorem Commits.made (h : w.Commits i n) : w.Made i n := by
  obtain ⟨here, t, call, transaction, hc, -⟩ := h
  exact .of_call here transaction hc

/-- The call that a turn of a commit makes on a transaction. -/
theorem made_lastCall (lt : n < w.transactions.length) (c u : Nat) (f : UnitOfWork → UnitOfWork)
    (purpose : Purpose) (s : Stage) :
    (w.evolve c u f n (w.callSteps n purpose) s).Made (w.lastCall n) n := by
  have transaction := List.getElem?_eq_getElem lt
  generalize w.transactions[n] = t at transaction
  have last : w.callsOn n = t.calls.length := by simp [callsOn, transaction]
  have begun : (t.perform w.now (.begin purpose)).point? t.calls.length = _ :=
    t.point?_begin purpose
  obtain ⟨call, hc, -⟩ := Option.map_eq_some_iff.mp begun
  obtain ⟨call', hc', -⟩ := (t.perform w.now (.begin purpose)).exists_call_run
    ((Transaction.strides t.calls.length).map fun a => (w.now, a)) hc
  apply Made.of_call rfl (transactions_evolve transaction)
  rw [callSteps, lastCall, last, Transaction.runAt_cons]
  exact hc'

/-- An operation is a commit that has been answered, and has to do with one transaction only. -/
structure Concludes (w : World) (c u thread n : Nat) (s : Stage) : Prop where
  running : w.operations[c]? = some ⟨u, thread, s⟩
  answered : s.isAnswered = true
  scope : ∀ scope, s.scope? = some scope → scope.transaction = n
  call : ∀ i, s.inner? = some i → w.Made i n

/-- A turn of a commit whose capability has answered, or has just done so, leads on. -/
theorem Turns.concludes (turns : w.Turns c u x thread l s f m actions s')
    (running : w.operations[c]? = some ⟨u, thread, s⟩)
    (late : s.isAnswered = true ∨ ∃ scope, s = .work scope)
    (here : ∀ scope, s.scope? = some scope → scope.transaction = n)
    (lt : n < w.transactions.length) :
    (w.evolve c u f m actions s').Concludes c u thread n s' := by
  have early {P : Prop} (eq : s.isAnswered = false) (idle : ∀ scope, s ≠ .work scope) : P := by
    rcases late with answered | ⟨scope, rfl⟩
    · cases eq.symm.trans answered
    · exact absurd rfl (idle scope)
  have after : (w.evolve c u f m actions s').operations[c]? = some ⟨u, thread, s'⟩ :=
    operations_evolve running
  have ended {r : Response Unit} (eq : s' = .done (.commit (.ok r))) :
      (w.evolve c u f m actions s').Concludes c u thread n s' := by
    subst eq
    exact ⟨after, rfl, by simp [Stage.scope?], by simp [Stage.inner?]⟩
  cases turns with
  | refuse | orphan | enter | decline | dispose | surrender => exact early rfl (by simp)
  | leave leaves => cases leaves <;> exact early rfl (by simp)
  | succeed | finish | yielded => exact ended rfl
  | @fail scope e | @discard scope e =>
      obtain rfl := here scope rfl
      refine ⟨after, rfl, here, fun i eq => ?_⟩
      obtain rfl := Option.some.inj eq
      exact made_lastCall lt ..
  | @complete scope =>
      obtain rfl := here scope rfl
      refine ⟨after, rfl, here, fun i eq => ?_⟩
      obtain rfl := Option.some.inj eq
      exact (w.commits_complete c u _ lt).made
  | @yield s scope result g judges =>
      obtain rfl := here scope judges.running.2
      refine ⟨after, rfl, by simp [Stage.scope?], fun i eq => ?_⟩
      obtain rfl := Option.some.inj eq
      exact made_lastCall lt ..

/-- Every step leaves a commit that has been answered on its way. -/
theorem Concludes.step (h : w.Concludes c u thread n s) (lt : n < w.transactions.length)
    (step : w.Step l w') :
    ∃ s', w'.Concludes c u thread n s' ∧ Advances w w' l c u thread s s' := by
  obtain ⟨s', after, advances⟩ := step.advances h.running
  refine ⟨s', ?_, advances⟩
  cases advances with
  | stay => exact ⟨after, h.answered, h.scope, fun i eq => (h.call i eq).step step⟩
  | answered waits =>
      have answered := h.answered
      rcases waits with rfl | rfl | rfl <;> cases answered
  | turn unit turns eq =>
      subst eq
      exact turns.concludes h.running (.inl h.answered) h.scope lt

/-- A commit that has been answered goes home: it works in a transaction whose fate is decided. -/
structure Homeward (w : World) (c u thread n : Nat) : Prop where
  order : w.Orderly
  lived : w.Lived
  isOver : ∃ t, w.transactions[n]? = some t ∧ t.IsOver
  concludes : ∃ s, w.Concludes c u thread n s

namespace Homeward

theorem step (h : w.Homeward c u thread n) (step : w.Step l w') : w'.Homeward c u thread n where
  order := h.order.step step
  lived := Lived.step h.lived step
  isOver := by
    obtain ⟨t, transaction, isOver⟩ := h.isOver
    obtain ⟨actions, after⟩ := step.transaction_forth transaction
    exact ⟨_, after, isOver.runAt (Lived.sound h.lived transaction).consistent w.now actions⟩
  concludes := by
    obtain ⟨t, transaction, -⟩ := h.isOver
    obtain ⟨s, concludes⟩ := h.concludes
    obtain ⟨s', after, -⟩ := concludes.step (List.getElem?_eq_some_iff.mp transaction).1 step
    exact ⟨s', after⟩

theorem isDecided (h : w.Homeward c u thread n) : w.IsDecided n := by
  obtain ⟨t, transaction, isOver⟩ := h.isOver
  exact ⟨t, transaction, isOver.closed⟩

end Homeward

theorem homeward_run {managers : List Manager} {past : List Action} {t : Transaction}
    (transaction : ((initial managers).run past).transactions[n]? = some t)
    (closed : t.status ≠ .active)
    (concludes : ∃ s, ((initial managers).run past).Concludes c u thread n s) :
    ((initial managers).run past).Homeward c u thread n where
  order := orderly_run managers past
  lived := (stemmed_run managers past).lived
  isOver := ⟨t, transaction, isOver_run transaction closed⟩
  concludes := concludes

/-! ## The turns that are left -/

/-- The most turns that a commit takes, once the fate of its transaction is decided: those of the
call that it waits for, and one to go on after it. -/
def left (w : World) (c : Nat) : Nat :=
  match w.innerOf (.operation c) with
  | some i => ((w.transactions[i.transaction]?).map fun t => t.remaining i.call).getD 0 + 1
  | none => 0

theorem left_eq_zero (running : w.operations[c]? = some ⟨u, thread, s⟩) (idle : s.inner? = none) :
    w.left c = 0 := by
  simp [left, innerOf, running, idle]

theorem left_eq (running : w.operations[c]? = some ⟨u, thread, s⟩) (waits : s.inner? = some i)
    {t : Transaction} (transaction : w.transactions[i.transaction]? = some t) :
    w.left c = t.remaining i.call + 1 := by
  simp [left, innerOf, running, waits, transaction]

/-- A call other than a commit leaves one turn, if the fate of its transaction is decided. -/
theorem left_called_le {purpose : Purpose} (running : w.operations[c]? = some ⟨u, thread, s⟩)
    (decided : w.IsDecided n) (other : purpose ≠ .commit)
    (waits : s'.inner? = some (w.lastCall n)) :
    (w.evolve c u f n (w.callSteps n purpose) s').left c ≤ 1 := by
  obtain ⟨t, transaction, closed⟩ := decided
  have after : (w.evolve c u f n (w.callSteps n purpose) s').operations[c]? =
      some ⟨u, thread, s'⟩ := operations_evolve running
  have last : w.callsOn n = t.calls.length := by simp [callsOn, transaction]
  obtain ⟨r, returned⟩ := t.exists_result?_begin w.now closed other
  rw [Transaction.result?_eq_some] at returned
  rw [left_eq after waits (transactions_evolve transaction), lastCall, callSteps, last,
    Transaction.remaining, returned]
  exact Nat.le_refl 1

/-- What a commit still does on a closed transaction, it does in the turn that takes it there. -/
theorem Turns.left_le (turns : w.Turns c u x thread l s f m actions s')
    (running : w.operations[c]? = some ⟨u, thread, s⟩) (answered : s.isAnswered = true)
    (here : ∀ scope, s.scope? = some scope → scope.transaction = n) (decided : w.IsDecided n) :
    (w.evolve c u f m actions s').left c ≤ 1 := by
  cases turns with
  | @discard scope =>
      obtain rfl := here scope rfl
      exact left_called_le running decided (by simp) rfl
  | @yield s scope result g judges =>
      obtain rfl := here scope judges.running.2
      exact left_called_le running decided (by simp) rfl
  | finish | yielded =>
      rw [left_eq_zero (operations_evolve running) rfl]
      exact Nat.zero_le 1
  | leave leaves => cases leaves <;> cases answered
  | _ => cases answered

namespace Homeward

/-- No step takes a commit away from its return. -/
theorem left_step_le (h : w.Homeward c u thread n) (step : w.Step l w') : w'.left c ≤ w.left c := by
  obtain ⟨t, transaction, isOver⟩ := h.isOver
  obtain ⟨s, concludes⟩ := h.concludes
  obtain ⟨s', after, advances⟩ := step.advances concludes.running
  rcases Stage.isAnswered_cases concludes.answered with ⟨i, waits, -⟩ | ⟨r, rfl⟩
  · obtain ⟨rfl, t₀, p, there, reached⟩ := concludes.call i waits
    obtain rfl := Option.some.inj (transaction.symm.trans there)
    have here := left_eq concludes.running waits transaction
    cases advances with
    | stay =>
        obtain ⟨actions, transaction'⟩ := step.transaction_forth transaction
        have consistent := (Lived.sound h.lived transaction).consistent
        rw [here, left_eq after waits transaction']
        apply Nat.succ_le_succ
        exact Transaction.remaining_runAt_le consistent isOver.closed reached w.now actions
    | answered eq => rcases eq with rfl | rfl | rfl <;> cases waits
    | turn unit turns eq =>
        subst eq
        calc _ ≤ 1 := turns.left_le concludes.running concludes.answered concludes.scope h.isDecided
          _ ≤ w.left c := by omega
  · cases advances with
    | stay =>
        rw [left_eq_zero after rfl]
        exact Nat.zero_le _
    | answered eq => rcases eq with eq | eq | eq <;> cases eq
    | turn unit turns =>
        cases turns with
        | finish judges | yield judges => cases judges
        | leave leaves => cases leaves

/-- A bound on the turns that are left stands. -/
theorem step_le {k : Nat} (h : w.Homeward c u thread n ∧ w.left c ≤ k) (step : w.Step l w') :
    w'.Homeward c u thread n ∧ w'.left c ≤ k :=
  ⟨h.1.step step, Nat.le_trans (h.1.left_step_le step) h.2⟩

theorem steps (h : w.Homeward c u thread n) (steps : w.Steps w') :
    w'.Homeward c u thread n ∧ w'.left c ≤ w.left c :=
  steps.preserve (P := fun w' => w'.Homeward c u thread n ∧ w'.left c ≤ w.left c)
    ⟨h, Nat.le_refl _⟩ fun before step _ => step_le before step

theorem perform (h : w.Homeward c u thread n) (a : Action) :
    (w.perform a).Homeward c u thread n ∧ (w.perform a).left c ≤ w.left c :=
  perform_induction (P := fun w' => w'.Homeward c u thread n ∧ w'.left c ≤ w.left c)
    ⟨h, Nat.le_refl _⟩ h.order.seated (fun _ _ _ step => step_le ⟨h, Nat.le_refl _⟩ step)
    fun before step _ => step_le before step

end Homeward

/-! ## Turns of a commit -/

/-- The action is what a commit needs in order to go on after its capability has answered: its turn,
the vote of a participant, or the return of one that is told the outcome. -/
def Action.serves (a : Action) (c : Nat) (need : Need) : Bool :=
  match a, need with
  | .turn (.operation d), .turn => d == c
  | .answer (.operation d) (.vote _), .prepare _ _ => d == c
  | .answer (.operation d) .done, .tell _ _ _ => d == c
  | _, _ => false

theorem Action.serves_cases {a : Action} {need : Need} (served : a.serves c need = true) :
    (a = .turn (.operation c) ∧ need = .turn) ∨
      (∃ v e info, a = .answer (.operation c) (.vote v) ∧ need = .prepare e info) ∨
      ∃ outcome e info, a = .answer (.operation c) .done ∧ need = .tell outcome e info := by
  unfold serves at served
  split at served
  next d =>
    obtain rfl : d = c := by simpa using served
    exact .inl ⟨rfl, rfl⟩
  next d v e info =>
    obtain rfl : d = c := by simpa using served
    exact .inr (.inl ⟨v, e, info, rfl, rfl⟩)
  next d outcome e info =>
    obtain rfl : d = c := by simpa using served
    exact .inr (.inr ⟨outcome, e, info, rfl, rfl⟩)
  next => cases served

/-- An action is a turn of a commit. -/
def isTurn (w : World) (c : Nat) (a : Action) : Bool := a.serves c (w.need (.operation c))

theorem need_of_waits (running : w.operations[c]? = some ⟨u, thread, s⟩)
    (waits : s.inner? = some i) : w.need (.operation c) =
      match w.needOfCall i with
      | .nothing => .turn
      | need => need := by
  simp only [need, running]
  cases s <;> cases waits <;> rfl

theorem innerOf_eq (running : w.operations[c]? = some ⟨u, thread, s⟩)
    (waits : s.inner? = some i) : w.innerOf (.operation c) = some i := by
  simp [innerOf, running, waits]

/-- A turn of a commit that waits for a call is a turn of the call, unless that has returned. -/
inductive Drives (w : World) (c : Nat) (i : Inner) (t : Transaction) (a : Action) : Prop
  | intro {g : Transaction → Nat → Transaction} {b : Nat → List Transaction.Action}
      (acts : w.perform a = w.onInner (.operation c) g)
      (same : ∀ t i, g t i = t.runAt w.now (b i)) (mild : ∀ a ∈ b i.call, a ≠ .begin .commit)
      (moves : (∃ r, t.result? i.call = some r) ∨ ∃ first rest,
        b i.call ++ Transaction.strides i.call = first :: rest ∧ t.isTurn i.call first = true) :
      Drives w c i t a

theorem drives_of_isTurn (running : w.operations[c]? = some ⟨u, thread, s⟩)
    (waits : s.inner? = some i) {t : Transaction} {p : Point}
    (transaction : w.transactions[i.transaction]? = some t) (reached : t.point? i.call = some p)
    {a : Action} (turn : w.isTurn c a = true) : w.Drives c i t a := by
  have point : w.point? i = some p := by simp [point?, transaction, reached]
  rw [isTurn, need_of_waits running waits, needOfCall, point] at turn
  have advance (ready : p.isReady = true ∨ ∃ r, p = .finished r) :
      w.Drives c i t (.turn (.operation c)) := by
    refine .intro (g := fun t _ => t) (b := fun _ => []) rfl (fun _ _ => rfl) (by simp) ?_
    rcases ready with ready | ⟨r, rfl⟩
    · refine .inr ⟨_, _, rfl, ?_⟩
      simp [Transaction.isTurn, reached, Transaction.Action.serves, ready]
    · exact .inl ⟨r, Transaction.result?_eq_some.mpr reached⟩
  rcases Action.serves_cases turn with ⟨rfl, need⟩ | ⟨v, e, info, rfl, need⟩ |
    ⟨outcome, e, info, rfl, need⟩
  · cases p with
    | parked | asking | telling => cases need
    | finished r => exact advance (.inr ⟨r, rfl⟩)
    | _ => exact advance (.inl rfl)
  · cases p with
    | asking =>
        refine .intro (g := fun t i => t.vote i v) (b := fun i => [.vote i v]) rfl
          (fun _ _ => rfl) (by simp) (.inr ⟨_, _, rfl, ?_⟩)
        simp [Transaction.isTurn, reached, Transaction.Action.serves]
    | _ => cases need
  · cases p with
    | telling =>
        refine .intro (g := fun t i => t.acknowledge i) (b := fun i => [.acknowledge i]) ?_
          (fun _ _ => rfl) (by simp) (.inr ⟨_, _, rfl, ?_⟩)
        · simp only [perform, answer, innerOf_eq running waits]
        · simp [Transaction.isTurn, reached, Transaction.Action.serves]
    | _ => cases need

namespace Homeward

/-- A turn brings a commit nearer to its return. -/
theorem left_perform_lt (h : w.Homeward c u thread n) {a : Action} (turn : w.isTurn c a = true) :
    (w.perform a).left c < w.left c := by
  obtain ⟨t, transaction, isOver⟩ := h.isOver
  obtain ⟨s, concludes⟩ := h.concludes
  rcases Stage.isAnswered_cases concludes.answered with ⟨i, waits, busy⟩ | ⟨r, rfl⟩
  · obtain ⟨rfl, t₀, p, there, reached⟩ := concludes.call i waits
    obtain rfl := Option.some.inj (transaction.symm.trans there)
    have here := left_eq concludes.running waits transaction
    obtain ⟨acts, same, mild, moves⟩ :=
      drives_of_isTurn concludes.running waits transaction reached turn
    rename_i g b
    let w₁ := w.transact i.transaction (b i.call ++ Transaction.strides i.call)
    have step : w.Step .quiet w₁ := .transact _ _ fun x mem =>
      (List.mem_append.mp mem).elim (mild x) (Transaction.mild_strides _ x)
    have h₁ := h.step step
    have eq : w.perform a = w₁.resume c :=
      acts.trans (onInner_eq (innerOf_eq concludes.running waits) same)
    have transaction₁ : w₁.transactions[i.transaction]? =
        some (t.runAt w.now (b i.call ++ Transaction.strides i.call)) := by
      simp [w₁, transact, modifyTransaction, transaction]
    rcases moves with ⟨r, returned⟩ | ⟨first, rest, split, first_turn⟩
    · -- The call has returned before, so the commit goes on to its end in this turn.
      have returned₁ : w₁.result? i = some r := by
        simpa [World.result?, transaction₁] using Transaction.result?_runAt returned _
      obtain ⟨result, ended⟩ := ends_resume (w := w₁) concludes.running busy waits returned₁
        fun scope within => concludes.scope scope within ▸ h₁.isDecided
      rw [eq, left_eq_zero ended rfl, here]
      exact Nat.succ_pos _
    · have consistent := (Lived.sound h.lived transaction).consistent
      calc (w.perform a).left c = (w₁.resume c).left c := by rw [eq]
        _ ≤ w₁.left c := (h₁.steps (steps_resume h₁.order.seated c)).2
        _ = (t.runAt w.now (first :: rest)).remaining i.call + 1 := by
          rw [left_eq (w := w₁) concludes.running waits transaction₁, split]
        _ < t.remaining i.call + 1 := Nat.succ_lt_succ
          (Transaction.remaining_runAt_lt consistent isOver.closed reached w.now first_turn rest)
        _ = w.left c := here.symm
  · have none : w.need (.operation c) = .nothing := by
      simp [need, concludes.running, needOfOperation]
    rcases Action.serves_cases turn with ⟨-, eq⟩ | ⟨_, _, _, -, eq⟩ | ⟨_, _, _, -, eq⟩ <;>
      cases none.symm.trans eq

/-- A commit on its way to its return has returned, or it has a turn to take. -/
theorem exists_isTurn (h : w.Homeward c u thread n) :
    (∃ r, w.operations[c]? = some ⟨u, thread, .done (.commit (.ok r))⟩) ∨
      ∃ a, w.isTurn c a = true := by
  obtain ⟨t, transaction, isOver⟩ := h.isOver
  obtain ⟨s, concludes⟩ := h.concludes
  rcases Stage.isAnswered_cases concludes.answered with ⟨i, waits, -⟩ | ⟨r, rfl⟩
  · right
    obtain ⟨rfl, t₀, p, there, reached⟩ := concludes.call i waits
    obtain rfl := Option.some.inj (transaction.symm.trans there)
    have woken := isOver.woken i.call p reached
    have point : w.point? i = some p := by simp [point?, transaction, reached]
    simp only [isTurn, need_of_waits concludes.running waits, needOfCall, point]
    cases p with
    | parked => cases woken
    | asking => exact ⟨.answer (.operation c) (.vote .prepared), by simp [Action.serves]⟩
    | telling => exact ⟨.answer (.operation c) .done, by simp [Action.serves]⟩
    | _ => exact ⟨.turn (.operation c), by simp [Action.serves]⟩
  · exact .inl ⟨r, concludes.running⟩

end Homeward

/-- The number of turns that a commit gets in a run. -/
def turns (w : World) (c : Nat) : List Action → Nat
  | [] => 0
  | a :: rest => (w.isTurn c a).toNat + (w.perform a).turns c rest

/-- In every run, the turns that a commit gets are taken off those that are left. -/
theorem Homeward.turns_add_left_le (h : w.Homeward c u thread n) (more : List Action) :
    w.turns c more + (w.run more).left c ≤ w.left c := by
  induction more generalizing w with
  | nil => simp [turns]
  | cons a rest ih =>
      obtain ⟨after, le⟩ := h.perform a
      have others := ih after
      rw [turns, run_cons]
      cases turn : w.isTurn c a with
      | true =>
          have lt := h.left_perform_lt turn
          rw [Bool.toNat_true]
          omega
      | false =>
          rw [Bool.toNat_false]
          omega

theorem Homeward.run (h : w.Homeward c u thread n) (more : List Action) :
    (w.run more).Homeward c u thread n := by
  induction more generalizing w with
  | nil => exact h
  | cons a rest ih => exact ih (h.perform a).1

/-- A commit returns, with a response of a kind: as long as it has not, there is something that it
needs and that can be given, and once it has been given a number of these it has returned, whatever
happens in between. -/
structure Returns (w : World) (c u thread : Nat) (told : Response Unit → Prop) : Prop where
  goes : (∃ r, w.operations[c]? = some ⟨u, thread, .done (.commit (.ok r))⟩ ∧ told r) ∨
    ∃ a, w.isTurn c a = true
  ends : ∃ k, ∀ more, k ≤ w.turns c more →
    ∃ r, (w.run more).operations[c]? = some ⟨u, thread, .done (.commit (.ok r))⟩ ∧ told r

theorem Homeward.returns {told : Response Unit → Prop} (h : w.Homeward c u thread n)
    (tells : ∀ more r, (w.run more).operations[c]? = some ⟨u, thread, .done (.commit (.ok r))⟩ →
      told r) : w.Returns c u thread told where
  goes := h.exists_isTurn.imp_left fun ⟨r, done⟩ => ⟨r, done, tells [] r done⟩
  ends := by
    refine ⟨w.left c, fun more enough => ?_⟩
    have le := h.turns_add_left_le more
    have used : (w.run more).left c = 0 := by omega
    obtain ⟨s, concludes⟩ := (h.run more).concludes
    rcases Stage.isAnswered_cases concludes.answered with ⟨i, waits, -⟩ | ⟨r, rfl⟩
    · simp [left, innerOf_eq concludes.running waits] at used
    · exact ⟨r, concludes.running, tells more r concludes.running⟩

end World

end NestedWork
