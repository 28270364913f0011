import Mathlib.Logic.Basic
import NestedWork.Proofs.Transaction.Event

/-!
# The steps of a transaction

What one step of a transaction can do, said once for all the invariants of its runs. A step
either stays, accepts a participant, gives out a dependent, begins a call or moves a call.

## Implementation notes

The calls of the environment and the calls of participants are the same calls, so nothing here
depends on who makes them. A step that moves a call keeps every other call where it is, except
that waiting commits may be woken. Views of a call that do not tell a woken commit from a
waiting one are therefore carried over unchanged.
-/

namespace NestedWork.Transaction

variable {t t₁ t' : Transaction} {now : Instant}

/-! ## What the critical sections leave alone -/

/-- Taking a dependent off the counts changes the counts and the dependents, and nothing else. -/
theorem discount_eq (t : Transaction) (k : Nat) (d : Dependent) :
    t.discount k d = { t with
      dependents := t.dependents.set k { d with released := true }
      blocking := t.blocking - if d.mode = .blocking then 1 else 0
      nonBlocking := t.nonBlocking - if d.mode = .nonBlocking then 1 else 0 } := by
  cases h : d.mode <;> simp [discount, h]

/-- Giving out a dependent changes the counts and the dependents, and nothing else. -/
theorem issue_eq (t : Transaction) (mode : DependentMode) :
    t.issue mode = { t with
      issued := t.issued + 1
      dependents := t.dependents ++ [⟨mode, false⟩]
      blocking := t.blocking + if mode = .blocking then 1 else 0
      nonBlocking := t.nonBlocking + if mode = .nonBlocking then 1 else 0 } := by
  cases mode <;> simp [issue]

/-! ## Beginning a call -/

/-- The first critical section of a call: what is asked, the transaction after it and the point
that the call comes to. -/
inductive Enters (t : Transaction) : Purpose → Transaction → Point → Prop
  | commit : Enters t .commit t .looking
  | strike (reason : AbortReason) (active : t.status = .active) :
      Enters t (.abort reason) (t.strike reason).1 (t.strike reason).2
  | late (reason : AbortReason) (closed : t.status ≠ .active) :
      Enters t (.abort reason) t (.finished (.ok ()))
  | forsake {k : Nat} {d : Dependent} (given : t.dependents[k]? = some d)
      (out : d.released = false) (active : t.status = .active) :
      Enters t (.release k false) ((t.discount k d).strike .dependentNotCompleted).1
        ((t.discount k d).strike .dependentNotCompleted).2
  | release {k : Nat} {d : Dependent} {completed : Bool} (given : t.dependents[k]? = some d)
      (out : d.released = false) (mild : completed = true ∨ t.status ≠ .active) :
      Enters t (.release k completed) (t.discount k d) (.waking none)
  | spare {k : Nat} {completed : Bool} (gone : ∀ d, t.dependents[k]? = some d → d.released) :
      Enters t (.release k completed) t (.finished (.ok ()))
  | shorten {timeout : Duration} (lt : timeout < t.timeout) :
      Enters t (.lower timeout) { t with timeout } (.waking none)
  | keep {timeout : Duration} (ge : ¬ timeout < t.timeout) :
      Enters t (.lower timeout) t (.finished (.ok ()))

/-- The first critical section of a call does one of these things. -/
theorem enters_enter (t : Transaction) (purpose : Purpose) :
    t.Enters purpose (t.enter purpose).1 (t.enter purpose).2 := by
  cases purpose with
  | commit => exact .commit
  | abort reason =>
      by_cases active : t.status = .active
      · simpa only [enter, abortIfActive, if_pos active] using Enters.strike reason active
      · simpa only [enter, abortIfActive, if_neg active] using Enters.late reason active
  | release k completed =>
      simp only [enter, releaseDependent]
      cases given : t.dependents[k]? with
      | none => exact .spare (by simp [given])
      | some d =>
          cases out : d.released with
          | true =>
              simpa [out] using @Enters.spare t k completed (by simp [given, out])
          | false =>
              by_cases active : t.status = .active
              · cases completed with
                | false => simpa [out, active] using Enters.forsake given out active
                | true => simpa [out] using Enters.release given out (.inl rfl)
              · simpa [out, active] using
                  @Enters.release t k d completed given out (.inr active)
  | lower timeout =>
      by_cases lt : timeout < t.timeout
      · simpa only [enter, Transaction.shorten, if_pos lt] using Enters.shorten lt
      · simpa only [enter, Transaction.shorten, if_neg lt] using Enters.keep lt

/-! ## Moving a call -/

/-- What a call at a point does next: the votes it hears, the transaction after it and the
point that it comes to. -/
inductive Moves (t : Transaction) (now : Instant) :
    Point → List Event → Transaction → Point → Prop
  | refuse (closed : t.status ≠ .active) :
      Moves t now .looking [] t (.finished (.error t.refusal))
  | strikeOutstanding (active : t.status = .active) (outstanding : 0 < t.nonBlocking) :
      Moves t now .looking [] (t.strike .dependentOutstanding).1
        (t.strike .dependentOutstanding).2
  | gather (active : t.status = .active) (clear : t.nonBlocking = 0) (idle : t.blocking = 0)
      (free : t.committing = false) :
      Moves t now .looking [] { t with committing := true, enlistments := [] }
        (.gathered t.enlistments)
  | strikeLate {d : Instant} (active : t.status = .active) (clear : t.nonBlocking = 0)
      (busy : ¬ (t.blocking = 0 ∧ t.committing = false)) (due : t.deadline = some d)
      (late : d ≤ now) :
      Moves t now .looking [] (t.strike (.timedOut t.timeout.millis)).1
        (t.strike (.timedOut t.timeout.millis)).2
  | park (active : t.status = .active) (clear : t.nonBlocking = 0)
      (busy : ¬ (t.blocking = 0 ∧ t.committing = false))
      (early : ∀ d, t.deadline = some d → ¬ d ≤ now) :
      Moves t now .looking [] t (.parked t.deadline)
  | rouse (deadline : Option Instant) : Moves t now (.parked deadline) [] t .looking
  | askNobody : Moves t now (.gathered []) [] t (.voted [] none)
  | ask (e : Enlistment) (rest : List Enlistment) :
      Moves t now (.gathered (e :: rest)) [] t (.asking t.information [] e rest)
  | hearRefusal (info : Information) (asked : List Enlistment) (e : Enlistment)
      (unasked : List Enlistment) (why : String) :
      Moves t now (.asking info asked e unasked) [.voted e (.refused why)] t
        (.voted (asked ++ e :: unasked) (some why))
  | hearLast (info : Information) (asked : List Enlistment) (e : Enlistment) :
      Moves t now (.asking info asked e []) [.voted e .prepared] t
        (.voted (asked ++ [e]) none)
  | hearAndAsk (info : Information) (asked : List Enlistment) (e next : Enlistment)
      (rest : List Enlistment) :
      Moves t now (.asking info asked e (next :: rest)) [.voted e .prepared] t
        (.asking info (asked ++ [e]) next rest)
  | strikeRefused (members : List Enlistment) (why : String) :
      Moves t now (.voted members (some why)) []
        (({ t with committing := false, enlistments := members }).strike (.votedNo why)).1
        (({ t with committing := false, enlistments := members }).strike (.votedNo why)).2
  | concede (members : List Enlistment) (closed : t.status ≠ .active) :
      Moves t now (.voted members none) [] { t with committing := false, enlistments := [] }
        (.closing ⟨.rollback, members,
          .error ⟨t.localId, t.abortReason.getD .dependentNotCompleted⟩⟩)
  | decide (members : List Enlistment) (active : t.status = .active) :
      Moves t now (.voted members none) []
        { t with committing := false, status := .committed, enlistments := [] }
        (.waking (some ⟨.commit, members, .ok ()⟩))
  | wake : Moves t now (.waking none) [] t.wakeAll (.finished (.ok ()))
  | wakeToTell (c : Closing) : Moves t now (.waking (some c)) [] t.wakeAll (.closing c)
  | tellNobody (outcome : Outcome) (result : Except Aborted Unit) :
      Moves t now (.closing ⟨outcome, [], result⟩) [] t (.finished result)
  | tell (outcome : Outcome) (e : Enlistment) (rest : List Enlistment)
      (result : Except Aborted Unit) :
      Moves t now (.closing ⟨outcome, e :: rest, result⟩) [] t
        (.telling t.information outcome e rest result)
  | toldLast (info : Information) (outcome : Outcome) (e : Enlistment)
      (result : Except Aborted Unit) :
      Moves t now (.telling info outcome e [] result) [] t (.finished result)
  | tellNext (info : Information) (outcome : Outcome) (e next : Enlistment)
      (rest : List Enlistment) (result : Except Aborted Unit) :
      Moves t now (.telling info outcome e (next :: rest) result) [] t
        (.telling info outcome next rest result)

/-- A commit that looks at the transaction does one of these things. -/
theorem moves_look (t : Transaction) (now : Instant) :
    t.Moves now .looking [] (t.look now).1 (t.look now).2 := by
  unfold look
  by_cases active : t.status = .active
  · rw [if_neg (not_not_intro active)]
    by_cases outstanding : 0 < t.nonBlocking
    · rw [if_pos outstanding]
      exact .strikeOutstanding active outstanding
    · rw [if_neg outstanding]
      have clear : t.nonBlocking = 0 := Nat.eq_zero_of_not_pos outstanding
      by_cases idle : t.blocking = 0 ∧ t.committing = false
      · rw [if_pos (by simpa using idle)]
        exact .gather active clear idle.1 idle.2
      · rw [if_neg (by simpa using idle)]
        cases due : t.deadline with
        | none => simpa only [due] using Moves.park active clear idle (by simp [due])
        | some d =>
            by_cases late : d ≤ now
            · simpa only [if_pos late] using Moves.strikeLate active clear idle due late
            · simpa only [if_neg late, due] using
                Moves.park active clear idle (by simpa [due] using late)
  · rw [if_pos active]
    exact .refuse active

/-- A commit that has the votes does one of these things. -/
theorem moves_decideFate (t : Transaction) (now : Instant) (members : List Enlistment)
    (refusal : Option String) :
    t.Moves now (.voted members refusal) [] (t.decideFate members refusal).1
      (t.decideFate members refusal).2 := by
  cases refusal with
  | some why => exact .strikeRefused members why
  | none =>
      by_cases active : t.status = .active
      · simpa [decideFate, active] using Moves.decide members active
      · simpa [decideFate, active] using Moves.concede members active

/-! ## Steps -/

/-- What a step does to a transaction, and the events that it makes. -/
inductive Step (t : Transaction) (now : Instant) : List Event → Transaction → Prop
  | stay : Step t now [] t
  | enlist (participant : Nat) (active : t.status = .active) (free : t.committing = false) :
      Step t now [.enlisted ⟨t.accepted, participant⟩] { t with
        enlistments := t.enlistments ++ [⟨t.accepted, participant⟩]
        accepted := t.accepted + 1 }
  | issue (mode : DependentMode) : Step t now [] (t.issue mode)
  | begin {purpose : Purpose} {t₁ : Transaction} {p : Point} (enters : t.Enters purpose t₁ p) :
      Step t now [] { t₁ with calls := t₁.calls ++ [⟨purpose, p⟩] }
  | move {i : Nat} {p p' : Point} {votes : List Event} {t₁ : Transaction}
      (reached : t.point? i = some p) (moves : t.Moves now p votes t₁ p') :
      Step t now (votes ++ p'.deeds) (t₁.moveTo i p')

/-- A critical section keeps the calls. -/
theorem Enters.calls_eq {purpose : Purpose} {p : Point} (h : t.Enters purpose t₁ p) :
    t₁.calls = t.calls := by
  cases h with
  | forsake | release => simp only [Transaction.strike, discount_eq]
  | _ => rfl

/-- A call that moves leaves the others where they are, or wakes those that wait. -/
theorem Moves.calls_eq {p p' : Point} {votes : List Event} (h : t.Moves now p votes t₁ p') :
    t₁.calls = t.calls ∨ t₁.calls = t.calls.map Call.wake := by
  cases h <;> first | exact .inl rfl | exact .inr rfl

theorem point?_moveTo (t : Transaction) (i j : Nat) (p : Point) :
    (t.moveTo i p).point? j = if i = j then (t.point? j).map fun _ => p else t.point? j := by
  simp only [point?, moveTo, List.getElem?_modify]
  by_cases h : i = j
  · cases t.calls[j]? <;> simp [h]
  · cases t.calls[j]? <;> simp [h]

theorem Moves.point?_eq {i : Nat} {p p' : Point} {votes : List Event}
    (h : t.Moves now p votes t₁ p') (reached : t.point? i = some p) :
    (t₁.moveTo i p').point? i = some p' := by
  obtain ⟨c, hc, -⟩ := Option.map_eq_some_iff.mp reached
  rw [point?_moveTo, if_pos rfl]
  rcases h.calls_eq with eq | eq <;> simp [point?, eq, hc]

theorem Moves.deedsOf_eq {i : Nat} {p p' : Point} {votes : List Event}
    (h : t.Moves now p votes t₁ p') (reached : t.point? i = some p) :
    (t₁.moveTo i p').deedsOf i = p'.deeds := by
  simp [deedsOf, h.point?_eq reached]

/-- The action is what a call at a point waits for in order to go on. -/
def Action.serves (a : Action) (i : Nat) (p : Point) : Bool :=
  match a, p with
  | .advance j, p => j == i && p.isReady
  | .vote j _, .asking _ _ _ _ => j == i
  | .acknowledge j, .telling _ _ _ _ _ => j == i
  | .rouse j, .parked _ => j == i
  | _, _ => false

/-- The call that an action is meant for. -/
def Action.call? : Action → Option Nat
  | .advance i | .vote i _ | .acknowledge i | .rouse i => some i
  | .enlist _ | .issue _ | .begin _ => none

section Serve

variable {i : Nat} {p : Point}

theorem exists_moves_advance (t : Transaction) (now : Instant) (reached : t.point? i = some p)
    (ready : p.isReady) :
    ∃ t₁ p', t.Moves now p [] t₁ p' ∧ t.advance now i = t₁.moveTo i p' := by
  cases p with
  | looking => exact ⟨_, _, moves_look t now, by simp [advance, reached]⟩
  | gathered members =>
      cases members with
      | nil => exact ⟨_, _, .askNobody, by simp [advance, reached]⟩
      | cons e rest => exact ⟨_, _, .ask e rest, by simp [advance, reached]⟩
  | voted members refusal =>
      exact ⟨_, _, moves_decideFate t now members refusal, by simp [advance, reached]⟩
  | waking c =>
      cases c with
      | none => exact ⟨_, _, .wake, by simp [advance, reached]⟩
      | some c => exact ⟨_, _, .wakeToTell c, by simp [advance, reached]⟩
  | closing c =>
      obtain ⟨outcome, members, result⟩ := c
      cases members with
      | nil => exact ⟨_, _, .tellNobody outcome result, by simp [advance, reached, Point.toldAll]⟩
      | cons e rest =>
          exact ⟨_, _, .tell outcome e rest result, by simp [advance, reached, Point.toldAll]⟩
  | parked | asking | telling | finished => cases ready

theorem exists_moves_vote (t : Transaction) (now : Instant) {info : Information}
    {asked unasked : List Enlistment} {e : Enlistment}
    (reached : t.point? i = some (.asking info asked e unasked)) (v : Vote) :
    ∃ t₁ p', t.Moves now (.asking info asked e unasked) [.voted e v] t₁ p' ∧
      t.vote i v = t₁.moveTo i p' := by
  cases v with
  | refused why =>
      exact ⟨_, _, .hearRefusal info asked e unasked why, by simp [vote, reached]⟩
  | prepared =>
      cases unasked with
      | nil => exact ⟨_, _, .hearLast info asked e, by simp [vote, reached]⟩
      | cons next rest =>
          exact ⟨_, _, .hearAndAsk info asked e next rest, by simp [vote, reached]⟩

theorem exists_moves_acknowledge (t : Transaction) (now : Instant) {info : Information}
    {outcome : Outcome} {e : Enlistment} {untold : List Enlistment} {result : Except Aborted Unit}
    (reached : t.point? i = some (.telling info outcome e untold result)) :
    ∃ t₁ p', t.Moves now (.telling info outcome e untold result) [] t₁ p' ∧
      t.acknowledge i = t₁.moveTo i p' := by
  cases untold with
  | nil => exact ⟨_, _, .toldLast info outcome e result, by simp [acknowledge, reached]⟩
  | cons next rest =>
      exact ⟨_, _, .tellNext info outcome e next rest result, by simp [acknowledge, reached]⟩

/-- A call that gets what it waits for moves. -/
theorem exists_moves {a : Action} (t : Transaction) (now : Instant)
    (reached : t.point? i = some p) (served : a.serves i p) :
    ∃ votes t₁ p', t.Moves now p votes t₁ p' ∧ t.perform now a = t₁.moveTo i p' ∧
      t.events now a = votes ++ p'.deeds := by
  cases a with
  | advance j =>
      obtain ⟨same, ready⟩ : j = i ∧ p.isReady = true := by
        simpa [Action.serves] using served
      subst same
      obtain ⟨t₁, p', moves, eq⟩ := exists_moves_advance t now reached ready
      refine ⟨[], t₁, p', moves, eq, ?_⟩
      simp only [events, perform, reached, eq, moves.deedsOf_eq reached, Option.any_some, ready]
      rfl
  | vote j v =>
      cases p with
      | asking info asked e unasked =>
          obtain rfl : j = i := by simpa [Action.serves] using served
          obtain ⟨t₁, p', moves, eq⟩ := exists_moves_vote t now reached v
          refine ⟨_, t₁, p', moves, eq, ?_⟩
          simp only [events, perform, reached, eq, moves.deedsOf_eq reached]
          rfl
      | _ => simp [Action.serves] at served
  | acknowledge j =>
      cases p with
      | telling info outcome e untold result =>
          obtain rfl : j = i := by simpa [Action.serves] using served
          obtain ⟨t₁, p', moves, eq⟩ := exists_moves_acknowledge t now reached
          refine ⟨[], t₁, p', moves, eq, ?_⟩
          simp only [events, perform, reached, eq, moves.deedsOf_eq reached]
          rfl
      | _ => simp [Action.serves] at served
  | rouse j =>
      cases p with
      | parked deadline =>
          obtain rfl : j = i := by simpa [Action.serves] using served
          exact ⟨[], t, .looking, .rouse deadline, by simp [perform, rouse, reached], rfl⟩
      | _ => simp [Action.serves] at served
  | enlist | issue | begin => cases served

/-- An action that no call waits for leaves everything as it is. -/
theorem perform_eq_self {a : Action} (t : Transaction) (now : Instant) (meant : a.call? = some i)
    (idle : ∀ p, t.point? i = some p → a.serves i p = false) :
    t.perform now a = t ∧ t.events now a = [] := by
  cases a with
  | advance j =>
      obtain rfl := Option.some.inj meant
      cases reached : t.point? j with
      | none => simp [perform, events, advance, reached]
      | some p =>
          have waits := idle p reached
          cases p <;> simp [Action.serves, Point.isReady] at waits <;>
            simp [perform, events, advance, reached, Point.isReady]
  | vote j v =>
      obtain rfl := Option.some.inj meant
      cases reached : t.point? j with
      | none => simp [perform, events, vote, reached]
      | some p =>
          have waits := idle p reached
          cases p <;> simp [Action.serves] at waits <;> simp [perform, events, vote, reached]
  | acknowledge j =>
      obtain rfl := Option.some.inj meant
      cases reached : t.point? j with
      | none => simp [perform, events, acknowledge, reached]
      | some p =>
          have waits := idle p reached
          cases p <;> simp [Action.serves] at waits <;>
            simp [perform, events, acknowledge, reached]
  | rouse j =>
      obtain rfl := Option.some.inj meant
      cases reached : t.point? j with
      | none => simp [perform, events, rouse, reached]
      | some p =>
          have waits := idle p reached
          cases p <;> simp [Action.serves] at waits <;> simp [perform, events, rouse, reached]
  | enlist | issue | begin => cases meant

end Serve

/-- Every step does one of the things listed, and makes the events listed for it. -/
theorem step_perform (t : Transaction) (now : Instant) (a : Action) :
    t.Step now (t.events now a) (t.perform now a) := by
  cases meant : a.call? with
  | some i =>
      by_cases served : ∃ p, t.point? i = some p ∧ a.serves i p
      · obtain ⟨p, reached, served⟩ := served
        obtain ⟨votes, t₁, p', moves, eq, events⟩ := exists_moves t now reached served
        rw [eq, events]
        exact .move reached moves
      · obtain ⟨eq, events⟩ := perform_eq_self t now meant fun p reached => by
          simpa using fun h => served ⟨p, reached, h⟩
        rw [eq, events]
        exact .stay
  | none =>
      cases a with
      | enlist participant =>
          by_cases closed : t.status ≠ .active ∨ t.committing = true
          · simpa [events, perform, enlist, closed, Except.isOk, Except.toBool,
              Except.toOption] using Step.stay
          · obtain ⟨active, free⟩ := not_or.mp closed
            simpa [events, perform, enlist, closed, Except.isOk, Except.toBool,
              Except.toOption] using
              Step.enlist participant (not_not.mp active) (Bool.not_eq_true _ ▸ free)
      | issue mode => exact .issue mode
      | begin purpose => exact .begin (enters_enter t purpose)
      | advance | vote | acknowledge | rouse => cases meant

end NestedWork.Transaction
