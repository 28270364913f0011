import NestedWork.Transaction.Basic

/-!
# Calls on a transaction

How a call on a transaction proceeds, step by step. Between two steps any other call may take
its own.

## Implementation notes

A call goes on by itself except at three points. A commit that is parked goes on once it is
woken, by another call or by its deadline. A call that asks or tells a participant goes on
with the participant's answer.
-/

namespace NestedWork

namespace Point

/-- Where the decision of a commit leads, once the participants are told of it. -/
def toldAll (c : Closing) (info : Information) : Point :=
  match c.members with
  | [] => finished c.result
  | e :: rest => telling info c.outcome e rest c.result

/-- The call goes on by itself. -/
def isReady : Point → Bool
  | looking | gathered _ | voted _ _ | waking _ | closing _ => true
  | parked _ | asking _ _ _ _ | telling _ _ _ _ _ | finished _ => false

/-- A waiting commit looks again. -/
def wake : Point → Point
  | parked _ => looking
  | p => p

end Point

namespace Transaction

/-- The point that a call has reached. -/
def point? (t : Transaction) (i : Nat) : Option Point := (t.calls[i]?).map Call.point

/-- The transaction with one of its calls moved to another point. -/
def moveTo (t : Transaction) (i : Nat) (p : Point) : Transaction :=
  { t with calls := t.calls.modify i fun c => { c with point := p } }

/-- Every waiting commit is woken. -/
def wakeAll (t : Transaction) : Transaction :=
  { t with calls := t.calls.map fun c => { c with point := c.point.wake } }

/-- The first critical section of a call. A commit has none before it first looks. -/
def enter (t : Transaction) : Purpose → Transaction × Point
  | .commit => (t, .looking)
  | .abort reason => t.abortIfActive reason
  | .release k completed => t.releaseDependent k completed
  | .lower timeout => t.shorten timeout

/-- Begins a call. Its place is the number of calls before it. -/
def begin (t : Transaction) (purpose : Purpose) : Transaction :=
  let (t, p) := t.enter purpose
  { t with calls := t.calls ++ [⟨purpose, p⟩] }

/-- One step of a call that goes on by itself. -/
def advance (t : Transaction) (now : Instant) (i : Nat) : Transaction :=
  match t.point? i with
  | some .looking =>
    let (t, p) := t.look now
    t.moveTo i p
  | some (.gathered []) => t.moveTo i (.voted [] none)
  | some (.gathered (e :: rest)) => t.moveTo i (.asking t.information [] e rest)
  | some (.voted members refusal) =>
    let (t, p) := t.decideFate members refusal
    t.moveTo i p
  | some (.waking none) => t.wakeAll.moveTo i (.finished (.ok ()))
  | some (.waking (some c)) => t.wakeAll.moveTo i (.closing c)
  | some (.closing c) => t.moveTo i (.toldAll c t.information)
  | _ => t

/-- The participant that a commit is asking gives its vote. -/
def vote (t : Transaction) (i : Nat) (v : Vote) : Transaction :=
  match t.point? i with
  | some (.asking info asked current unasked) =>
    match v, unasked with
    | .refused why, _ => t.moveTo i (.voted (asked ++ current :: unasked) (some why))
    | .prepared, [] => t.moveTo i (.voted (asked ++ [current]) none)
    | .prepared, e :: rest => t.moveTo i (.asking info (asked ++ [current]) e rest)
  | _ => t

/-- The participant that is being told the outcome returns. -/
def acknowledge (t : Transaction) (i : Nat) : Transaction :=
  match t.point? i with
  | some (.telling _ _ _ [] result) => t.moveTo i (.finished result)
  | some (.telling info outcome _ (e :: rest) result) =>
    t.moveTo i (.telling info outcome e rest result)
  | _ => t

/-- A waiting commit looks again, woken by nobody in particular. -/
def rouse (t : Transaction) (i : Nat) : Transaction :=
  match t.point? i with
  | some (.parked _) => t.moveTo i .looking
  | _ => t

/-- The most steps that a call takes by itself in a row. -/
def stride : Nat := 6

/-- A call taken as far as it goes by itself, in at most the given number of steps. -/
def settleIn (now : Instant) (i : Nat) : Nat → Transaction → Transaction
  | 0, t => t
  | n + 1, t => settleIn now i n (t.advance now i)

/-- A call taken as far as it goes by itself. -/
def settle (t : Transaction) (now : Instant) (i : Nat) : Transaction :=
  settleIn now i stride t

/-- The result of a call that has returned. -/
def result? (t : Transaction) (i : Nat) : Option (Except Aborted Unit) :=
  match t.point? i with
  | some (.finished r) => some r
  | _ => none

/-! ## Runs -/

/-- A step of the callers of a transaction, of its participants or of a call on it. -/
inductive Action where
  | enlist (participant : Nat)
  | issue (mode : DependentMode)
  | begin (purpose : Purpose)
  | advance (call : Nat)
  | vote (call : Nat) (v : Vote)
  | acknowledge (call : Nat)
  | rouse (call : Nat)

/-- The transaction after one step, at a given time. -/
def perform (t : Transaction) (now : Instant) : Action → Transaction
  | .enlist participant => (t.enlist participant).toOption.getD t
  | .issue mode => t.issue mode
  | .begin purpose => t.begin purpose
  | .advance i => t.advance now i
  | .vote i v => t.vote i v
  | .acknowledge i => t.acknowledge i
  | .rouse i => t.rouse i

/-- The transactions that a run can reach, with the time it has come to. -/
inductive Reachable (options : TransactionOptions) : Instant → Transaction → Prop where
  | create (localId : String) (sequence : Nat) (createdAt : Calendar.Timestamp)
      (now : Instant) :
      Reachable options now (create localId sequence createdAt now options)
  | step {now : Instant} {t : Transaction} (h : Reachable options now t) (a : Action) :
      Reachable options now (t.perform now a)
  | tick {now : Instant} {t : Transaction} (h : Reachable options now t) (later : Instant)
      (le : now ≤ later) : Reachable options later t

end Transaction

end NestedWork
