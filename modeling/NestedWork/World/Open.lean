import NestedWork.World.Manager

/-!
# Opening units

Opening a unit of work, and the one timeout that a chain of units shares.

## Implementation notes

The chain shares the shortest timeout asked for. A nested unit that asks for less lowers every
ancestor and the transaction of the root. One that asks for more gets its parent's.
-/

namespace NestedWork

/-- What is asked of a new unit. -/
structure Opening where
  id : String
  transactionId : String
  parent : Option Nat
  thread : Nat
  manager : Nat
  options : TransactionOptions

namespace World

/-- Shortens the timeout of one unit and of the transaction it holds. A longer one is
ignored. -/
def lowerUnit (w : World) (u : Nat) (timeout : Duration) : World :=
  match w.units[u]? with
  | none => w
  | some x =>
    if x.options.timeout ≤ timeout then w
    else
      let w := w.modifyUnit u fun x => { x with options := x.options.withTimeout timeout }
      match x.slot with
      | .live t => (w.call t (.lower timeout)).1
      | _ => w

/-- The options that a nested unit gets under its parent, and whether it lowers the chain. -/
def nest (parent : UnitOfWork) (options : TransactionOptions) :
    Except Violation (TransactionOptions × Bool) :=
  if parent.options.isolation ≠ options.isolation then
    .error (.isolationMismatch parent.options.isolation options.isolation)
  else if options.timeout < parent.options.timeout then .ok (options, true)
  else .ok (options.withTimeout parent.options.timeout, false)

/-- The options that a new unit gets, and the units whose timeouts it lowers. A negative
timeout is found before any disagreement with the parent. -/
def resolve (w : World) (parent : Option Nat) (options : TransactionOptions) :
    Except Violation (TransactionOptions × List Nat) :=
  if options.timeout < Duration.zero then .error (.negativeTimeout options.timeout)
  else match parent.bind fun p => (w.units[p]?).map fun x => (p, x) with
    | none => .ok (options, [])
    | some (p, x) =>
      match nest x options with
      | .error v => .error v
      | .ok (options, lowers) => .ok (options, if lowers then p :: x.lineage else [])

/-- The ancestors of a child of the given unit. -/
def lineageUnder (w : World) : Option Nat → List Nat
  | none => []
  | some p =>
    match w.units[p]? with
    | some x => p :: x.lineage
    | none => []

/-- The unit that an opening asks for, with the options it gets. -/
def openedUnit (w : World) (o : Opening) (options : TransactionOptions) : UnitOfWork where
  id := o.id
  transactionId := o.transactionId
  lineage := w.lineageUnder o.parent
  thread := o.thread
  manager := o.manager
  options
  status := .inDoubt
  disposed := false
  slot := .pending
  handles := 0
  committing := false
  current := none

/-- Opens a unit. Its place is the number of units before it. -/
def openUnit (w : World) (o : Opening) : Except Violation World :=
  match w.resolve o.parent o.options with
  | .error v => .error v
  | .ok (options, lowered) =>
    let unit := w.openedUnit o options
    let u := w.units.length
    let w := lowered.foldl (fun w v => w.lowerUnit v o.options.timeout) w
    let w := { w with units := w.units ++ [unit] }
    .ok <|
      if w.isExternal o.manager then w.push ⟨u, o.thread, .welcome⟩
      else (w.register o.manager u).push ⟨u, o.thread, .done .returned⟩

end World

end NestedWork
