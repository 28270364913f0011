import NestedWork.Transaction.Call

/-!
# What happens to participants

A record of what a step does to the participants of a transaction: one is accepted, is asked to
prepare, votes, or is told the outcome.

## Implementation notes

A transaction keeps no record of the past. Each event is read off the step that makes it: a
participant is asked or told at the moment at which a call comes to the point of doing so.
-/

namespace NestedWork

/-- What happens to a participant. -/
inductive Event where
  | enlisted (member : Enlistment)
  | asked (member : Enlistment)
  | voted (member : Enlistment) (vote : Vote)
  | told (outcome : Outcome) (member : Enlistment)
deriving DecidableEq, Repr

namespace Event

/-- The participant that an event enlists. -/
def enlisted? : Event → Option Enlistment
  | enlisted e => some e
  | _ => none

/-- The participant that an event asks to prepare. -/
def asked? : Event → Option Enlistment
  | asked e => some e
  | _ => none

/-- The participant that an event tells an outcome. -/
def told? : Event → Option Enlistment
  | told _ e => some e
  | _ => none

/-- The event tells a participant the outcome, whichever it is. -/
def tells (e : Enlistment) (event : Event) : Bool := event.told? == some e

end Event

/-- The status of a transaction whose participants are told an outcome. -/
def Outcome.status : Outcome → Status
  | commit => .committed
  | rollback => .aborted

namespace Point

/-- What a call does to a participant when it comes to a point. -/
def deeds : Point → List Event
  | asking _ _ e _ => [.asked e]
  | telling _ outcome e _ _ => [.told outcome e]
  | _ => []

/-- The participants that a call has yet to tell the outcome, or to put into hands that will. -/
def held : Point → List Enlistment
  | gathered members | voted members _ => members
  | asking _ asked e unasked => asked ++ e :: unasked
  | waking (some c) | closing c => c.members
  | telling _ _ _ untold _ => untold
  | looking | parked _ | waking none | finished _ => []

/-- The participants that a call may yet ask to prepare. -/
def unasked : Point → List Enlistment
  | gathered members => members
  | asking _ _ _ unasked => unasked
  | _ => []

/-- The participants that a commit has asked to prepare, up to the first refusal. -/
def queried : Point → List Enlistment
  | asking _ asked e _ => asked ++ [e]
  | voted members none => members
  | _ => []

/-- The participants that a commit has heard to be prepared. -/
def prepared : Point → List Enlistment
  | asking _ asked _ _ => asked
  | voted members none => members
  | _ => []

/-- A commit has the participants in its hands and has not decided. -/
def isPreparing : Point → Bool
  | gathered _ | asking _ _ _ _ | voted _ _ => true
  | _ => false

/-- The outcome that a call is to tell, once the fate is decided. -/
def outcome? : Point → Option Outcome
  | waking (some c) | closing c => some c.outcome
  | telling _ outcome _ _ _ => some outcome
  | _ => none

/-- What a call is going to return, once that is settled. -/
def ending? : Point → Option (Except Aborted Unit)
  | waking none => some (.ok ())
  | waking (some c) | closing c => some c.result
  | telling _ _ _ _ result | finished result => some result
  | _ => none

/-- A call has returned. -/
def isFinished : Point → Bool
  | finished _ => true
  | _ => false

/-- A call that holds participants and tells no outcome is a commit that has not decided. -/
theorem isPreparing_of_mem_held {p : Point} {e : Enlistment} (mem : e ∈ p.held)
    (quiet : p.outcome? = none) : p.isPreparing := by
  cases p with
  | waking c => cases c <;> simp [held, outcome?] at mem quiet
  | closing | telling => simp [outcome?] at quiet
  | gathered | asking | voted => rfl
  | _ => simp [held] at mem

/-! ## Views of a call that waking leaves alone -/

variable (p : Point)

@[simp] theorem held_wake : p.wake.held = p.held := by cases p <;> rfl

@[simp] theorem unasked_wake : p.wake.unasked = p.unasked := by cases p <;> rfl

@[simp] theorem queried_wake : p.wake.queried = p.queried := by cases p <;> rfl

@[simp] theorem prepared_wake : p.wake.prepared = p.prepared := by cases p <;> rfl

@[simp] theorem isPreparing_wake : p.wake.isPreparing = p.isPreparing := by cases p <;> rfl

@[simp] theorem outcome?_wake : p.wake.outcome? = p.outcome? := by cases p <;> rfl

@[simp] theorem ending?_wake : p.wake.ending? = p.ending? := by cases p <;> rfl

end Point

/-- A call whose commit looks again, if it waits. -/
def Call.wake (c : Call) : Call := { c with point := c.point.wake }

namespace Transaction

/-- What a call that has just come to its point does to a participant. -/
def deedsOf (t : Transaction) (i : Nat) : List Event := ((t.point? i).map Point.deeds).getD []

/-- What a step does to the participants of a transaction. -/
def events (t : Transaction) (now : Instant) (a : Action) : List Event :=
  match a with
  | .enlist participant =>
    if (t.enlist participant).isOk then [.enlisted ⟨t.accepted, participant⟩] else []
  | .advance i =>
    if (t.point? i).any Point.isReady then (t.perform now a).deedsOf i else []
  | .vote i v =>
    match t.point? i with
    | some (.asking _ _ e _) => .voted e v :: (t.perform now a).deedsOf i
    | _ => []
  | .acknowledge i =>
    match t.point? i with
    | some (.telling _ _ _ _ _) => (t.perform now a).deedsOf i
    | _ => []
  | .issue _ | .begin _ | .rouse _ => []

end Transaction

end NestedWork
