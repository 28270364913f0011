import NestedWork.Session.Perform

/-!
# Running a session

How tasks act, how time passes, and the report of a whole script.

## Implementation notes

The task of a step acts until it is blocked or over, then every other task does, in the order
in which they began. A task begins only once its thread is free of earlier ones. Time stands
still while any task can act. It passes only when a step waits, up to the next instant that a
task waits for.

A session may take a fixed number of turns. A script that needs more never comes to rest.
-/

namespace NestedWork.Session

/-- The result of something under way that has returned. -/
def resultOf (s : Session) : Activity → Result
  | .operation c =>
    match (s.world.operations[c]?).map Operation.stage with
    | some (.done (.commit r)) => .commit r
    | _ => .nothing
  | .call i =>
    match (s.world.transactions[i.transaction]?).bind fun t => t.calls[i.call]? with
    | some ⟨.commit, .finished (.ok ())⟩ => .ok
    | some ⟨.commit, .finished (.error a)⟩ => .aborted a
    | _ => .nothing

/-- The unit that something under way was the last operation on, if it was dropped meanwhile. -/
def doomed? (s : Session) : Activity → Option Nat
  | .operation c => do
    let o ← s.world.operations[c]?
    let e ← s.entryOf? o.unit
    if e.doomed && !s.isBusy o.unit then some o.unit else none
  | .call _ => none

/-- Something under way returns. -/
def returned (s : Session) (k thread : Nat) (a : Activity) : Session :=
  let r := s.resultOf a
  match s.doomed? a with
  | none => s.finish k r
  | some u =>
    ((s.modifyEntry u fun e => { e with doomed := false }).replace k
      (.deliver r)).beginOperation k thread fun w => w.beginRelease u thread true

/-- Whoever is needed is called, and the frame on top waits for the callback. -/
def callOut (a : Announcement) (k thread : Nat) (top : Frame) : Session :=
  (a.session.replace k top).push k (.callback a.owner thread a.steps none)

/-- Something under way gets what it needs, or nothing if it has to wait. -/
def attend (s : Session) (k thread : Nat) (a : Activity) (announced : Bool) : Option Session :=
  match s.world.need a with
  | .nothing => some (s.returned k thread a)
  | .turn => some { s with world := s.world.turn a }
  | .wakening deadline =>
    match deadline with
    | some d => if d ≤ s.world.now then some { s with world := s.world.rouse a } else none
    | none => none
  | need =>
    if announced then
      some ({ s with world := s.world.answer a (s.reply need) }.replace k
        (.activity a thread false))
    else do
      let called ← s.announce thread need
      return callOut called k thread (.activity a thread true)

/-- A manager that was asked directly gives its answer. -/
def attendQuestion (s : Session) (k : Nat) (q : Question) (u m thread : Nat)
    (announced : Bool) : Session :=
  if announced then
    s.finish k <| match q with
      | .canCommit | .canDispose => .flag (s.allows m q u)
      | .opened | .disposed => .nothing
  else callOut (s.announceQuestion m q u) k thread (.question q u m thread true)

/-- What a wait for a task ends with, once it does. -/
def waited? (s : Session) (task : String) : Wait → Option Result
  | .gate g => if s.entered.contains g then some .entered else none
  | .done => (s.task? task).bind Task.result
  | .blocked _ => none

/-- A task has ended. -/
def hasEnded (s : Session) (task : String) : Bool :=
  ((s.task? task).bind Task.result).isSome

/-- The unit that a wait is for is committed, or there is no such unit to wait for. -/
def isSettled (s : Session) (unit : Option String) : Bool :=
  match (unit.bind s.unit?).bind fun e => s.world.units[e.unit]? with
  | some x => x.status == .committed
  | none => true

/-- The batch on top of a task is over. Its events are put in the order of those who report
them, and say nothing of what was outstanding. -/
def endBatch (s : Session) (k : Nat) (b : Batch) (limit mark : Nat) : Session :=
  let during := s.events.drop mark
  let threads := during.filterMap fun e =>
    match e.happening with
    | .work w => some w.thread
    | _ => none
  let cleared := during.map fun e =>
    match e.happening with
    | .work w => { e with happening := .work { w with outstanding := none } }
    | _ => e
  let sorted := cleared.mergeSort fun x y => decide (x.reporter ≤ y.reporter)
  { s with events := s.events.take mark ++ sorted }.finish k
    (.outcomes b.outcomes (threads.eraseDups.length ≤ limit))

/-- The worker on top of a task takes its next step. -/
def attendWorker (s : Session) (k b j : Nat) : Session :=
  match s.batches[b]? with
  | none => s.finish k .nothing
  | some batch =>
    match batch.workers[j]? with
    | none => s.finish k .nothing
    | some worker =>
      let (world, batch) := Batch.step s.world batch j
      let moved : Session := { s with world, batches := s.batches.set b batch }
      match worker.stage with
      | .finished => s.finish k .nothing
      | .committing _ _ c =>
        match s.world.need (.operation c) with
        | .nothing => moved
        | _ => s.push k (.activity (.operation c) worker.thread false)
      | _ => moved

/-- The thread is taken by a task that began before the given one and is not over. -/
def isTaken (s : Session) (k thread : Nat) : Bool :=
  (s.tasks.take k).any fun t => t.thread == thread && t.result.isNone

/-- The frame on top of a task acts, unless it has to wait. -/
def act (s : Session) (k : Nat) : Frame → Option Session
  | .step thread step =>
    if s.isTaken k thread then none else some ((s.pop k).perform k thread step)
  | .activity a thread announced => s.attend k thread a announced
  | .question q u m thread announced => some (s.attendQuestion k q u m thread announced)
  | .callback _ _ [] _ => some (s.finish k .nothing)
  | .callback owner thread (step :: rest) _ =>
    some ((s.replace k (.callback owner thread rest (some step.word))).perform k thread step)
  | .gate g => if s.released.contains g then some (s.finish k (.flag true)) else none
  | .meeting other deadline =>
    if s.announced.contains other then some (s.finish k (.flag true))
    else if deadline ≤ s.world.now then some (s.finish k (.flag false))
    else none
  | .waiting task (.blocked unit) =>
    if s.isSettled unit || s.hasEnded task then
      some (s.replace k (.pause task (s.later shortWhile)))
    else none
  | .waiting task wait => (s.waited? task wait).map (s.finish k)
  | .pause task deadline =>
    if deadline ≤ s.world.now then some (s.finish k (.ended (s.hasEnded task))) else none
  | .batch b limit mark =>
    match s.batches[b]? with
    | none => some (s.finish k .nothing)
    | some batch => if batch.isFinished then some (s.endBatch k batch limit mark) else none
  | .worker b j => some (s.attendWorker k b j)
  | .deliver r => some (s.finish k r)

/-- A task acts, unless it has to wait or is over. -/
def actTask (s : Session) (k : Nat) : Option Session := do
  let frame ← (← s.tasks[k]?).stack.head?
  s.act k frame

/-- The session once no task can act, beginning with the given one. -/
def drive : Nat → Session → Nat → Session
  | 0, s, _ => s
  | turns + 1, s, k =>
    match s.actTask k with
    | some s => drive turns s k
    | none =>
      match (List.range s.tasks.length).findSome? fun j => (s.actTask j).map fun s => (j, s) with
      | some (j, s) => drive turns s j
      | none => s

/-! ## Time -/

/-- The instant that a blocked frame waits for. -/
def deadlineOf (s : Session) : Frame → Option Instant
  | .activity a _ _ =>
    match s.world.need a with
    | .wakening deadline => deadline
    | _ => none
  | .meeting _ deadline | .pause _ deadline => some deadline
  | _ => none

/-- The earlier of two instants. -/
def earlier (a b : Instant) : Instant := if a ≤ b then a else b

/-- The next instant that a task waits for. -/
def nextDeadline (s : Session) : Option Instant :=
  (s.tasks.filterMap fun t => t.stack.head?.bind s.deadlineOf).foldl
    (fun best d => some (match best with
      | some b => earlier b d
      | none => d)) none

/-- The turns that tasks may take before time has to pass. -/
def patience : Nat := 100000

/-- The session once a task has ended, or once nothing can happen any more. -/
def await : Nat → Session → Nat → Session
  | 0, s, _ => s
  | rounds + 1, s, k =>
    let s := drive patience s k
    match (s.tasks[k]?).bind Task.result, s.nextDeadline with
    | none, some d =>
      if s.world.now < d then
        await rounds { s with world := { s.world with now := d } } k
      else s
    | _, _ => s

/-! ## Scripts -/

/-- A step at the top level of a script, with the task to wait for after it. -/
structure TopStep where
  step : Step
  awaited : Option String

/-- A step of the script and the report of it. -/
def runStep (s : Session) (top : TopStep) : Session × Entry :=
  let k := s.tasks.length
  let (s, n) := s.threadNumber (top.step.thread?.getD "main")
  let s := { s with events := [], tasks := s.tasks ++ [⟨"", n, [.step n top.step], none⟩] }
  let s := await 1000 s k
  let s := match top.awaited.bind fun name => s.tasks.findIdx? fun t => t.name == name with
    | some j => await 1000 s j
    | none => s
  let resultAt := fun (t : Option Task) =>
    match t.bind Task.result with
    | some r => r
    | none => Result.misuse "the step never ends"
  (s, {
    result := resultAt s.tasks[k]?
    awaited := top.awaited.map fun name => resultAt (s.task? name)
    events := s.events
    snapshot := s.snapshot })

/-- The reports of a script from a session on. -/
def runFrom (s : Session) : List TopStep → List Entry
  | [] => []
  | top :: rest =>
    let (s, entry) := s.runStep top
    entry :: s.runFrom rest

/-- The reports of a script. -/
def run (script : List TopStep) : List Entry := initial.runFrom script

end NestedWork.Session
