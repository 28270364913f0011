import NestedWork.Identifier
import NestedWork.Session.Callback

/-!
# Performing steps

What each step of a session does. A step that is over at once gives its result. Any other
puts a frame on top of its task.
-/

namespace NestedWork.Session

/-- The pause after which a task is taken to be blocked. -/
def shortWhile : Duration := Duration.ofMillis 30

/-- The time for which one waits at a meeting. -/
def meetingTime : Duration := Duration.ofMillis 2000

/-- The instant a span from now. -/
def later (s : Session) (d : Duration) : Instant := ⟨s.world.now.nanos + d.nanos.toNat⟩

/-- A step that names what the session does not have. -/
def missing (s : Session) (k : Nat) (name : String) : Session :=
  s.give k (.misuse ("nothing is named " ++ name))

/-! ## Managers -/

/-- A manager is added. -/
def addManager (s : Session) (name : String) (kind : ManagerKind Step) : Session :=
  let manager := match kind with
    | .registry => Manager.registry []
    | .permissive => .permissive
    | .scripted _ => .external
  { s with
    world := { s.world with managers := s.world.managers ++ [manager] }
    managers := s.managers ++ [⟨name, kind⟩] }

/-- The flags of a scripted manager are changed. -/
def setManager (s : Session) (name : String) (canCommit canDispose : Option Bool) : Session :=
  { s with managers := s.managers.map fun e =>
      match e.kind with
      | .scripted plan =>
        if e.name == name then
          { e with kind := .scripted { plan with
              canCommit := canCommit.getD plan.canCommit
              canDispose := canDispose.getD plan.canDispose } }
        else e
      | _ => e }

/-- A question is put to a manager directly. -/
def askManager (s : Session) (k thread : Nat) (q : Question) (u m : Nat) : Session :=
  if s.world.isExternal m then s.push k (.question q u m thread false)
  else match q with
    | .canCommit | .canDispose => s.give k (.flag (s.allows m q u))
    | .opened => ({ s with world := s.world.register m u } : Session).give k .nothing
    | .disposed => ({ s with world := s.world.forget m u } : Session).give k .nothing

/-! ## Units -/

/-- The options that a new unit asks for. -/
def optionsOf : OptionSource → Except Settings.TextError TransactionOptions
  | .given options => .ok options
  | .configured json => (Settings.parse json.toList).map Settings.options

/-- A unit is opened. -/
def openUnit (s : Session) (k thread : Nat) (plan : UnitPlan Step) : Session :=
  let parent := plan.parent.map fun p => (p, s.unit? p)
  match parent, s.manager? plan.ambient with
  | some (p, none), _ => s.missing k p
  | _, none => s.missing k plan.ambient
  | _, some manager =>
    match optionsOf plan.options with
    | .error e => s.give k (.badSettings e)
    | .ok options =>
      let opening : Opening := {
        id := "<unit:" ++ plan.name ++ ">"
        transactionId := "<tx:" ++ plan.name ++ ">"
        parent := parent.bind fun p => p.2.map UnitEntry.unit
        thread
        manager
        options }
      match s.world.openUnit opening with
      | .error v => s.give k (.violation v)
      | .ok world =>
        let entry : UnitEntry := ⟨plan, s.world.units.length, true, false⟩
        let s : Session := { s with world, units := s.units ++ [entry] }
        (s.push k (.deliver .ok)).push k
          (.activity (.operation (world.operations.length - 1)) thread false)

/-- An operation begins in the world. -/
def beginOperation (s : Session) (k thread : Nat) (begin : World → World) : Session :=
  let c := s.world.operations.length
  ({ s with world := begin s.world } : Session).push k (.activity (.operation c) thread false)

/-- An operation on a unit is running. -/
def isBusy (s : Session) (u : Nat) : Bool :=
  s.world.operations.any fun o =>
    o.unit == u && match o.stage with
      | .done _ => false
      | _ => true

/-- A unit is dropped, at once unless an operation on it is running. -/
def dropUnit (s : Session) (k thread u : Nat) : Session :=
  if s.isBusy u then
    (s.modifyEntry u fun e => { e with held := false, doomed := true }).give k .nothing
  else
    (s.modifyEntry u fun e => { e with held := false }).beginOperation k thread fun w =>
      w.beginRelease u thread true

/-- What is told of a unit. -/
def description? (s : Session) (e : UnitEntry) (thread : Nat) : Option Description := do
  let x ← s.world.units[e.unit]?
  return {
    isRoot := x.isRoot
    ancestors := x.lineage.map s.nameOf
    rootName := s.nameOf (s.world.rootOf e.unit)
    onOwnThread := x.thread == thread
    options := x.options
    status := x.status
    disposed := x.disposed
    hasTransaction := (s.world.liveTransaction? e.unit).isSome
    held :=
      if e.held then
        some ⟨x.options, x.parent?.map s.nameOf, x.status, e.plan.name⟩
      else none }

/-! ## Batches -/

/-- The options of a batch. -/
def workersOf : WorkerSource → Except Settings.TextError TransactionOptions
  | .count n => .ok (TransactionOptions.default.withParallelism n)
  | .configured json => (Settings.parse json.toList).map Settings.options

/-- Several units are committed by workers on threads of their own. -/
def commitMany (s : Session) (k : Nat) (units : List Nat) (options : TransactionOptions) :
    Session :=
  let count := Batch.workerCount units options
  let threads := (List.range count).map fun i => s.threads.length + i
  let b := s.batches.length
  let workers := (List.range count).map fun i =>
    (⟨"", s.threads.length + i, [.worker b i], none⟩ : Task)
  ({ s with
    threads := s.threads ++ threads.map fun _ => ""
    batches := s.batches ++ [Batch.create units threads]
    tasks := s.tasks ++ workers } : Session).push k (.batch b options.parallelism s.events.length)

/-! ## Transactions -/

/-- A call is made on a transaction. -/
def beginCall (s : Session) (k thread t : Nat) (purpose : Purpose) : Session :=
  let (world, inner) := s.world.call t purpose
  ({ s with world } : Session).push k (.activity (.call inner) thread false)

/-- A commit of a transaction is running. -/
def isCommitting (s : Session) (t : Nat) : Bool :=
  match s.world.transactions[t]? with
  | some x => x.calls.any fun c =>
      c.purpose == .commit && match c.point with
        | .finished _ => false
        | _ => true
  | none => false

/-- The handle that owns a transaction is dropped. A commit that is running keeps it, and
ends the transaction before it lets go. -/
def dropOwner (s : Session) (k thread : Nat) (e : TransactionEntry) : Session :=
  let transactions := s.transactions.map fun x =>
    if x.name == e.name then { x with owned := false } else x
  let s := { s with transactions }
  if s.isCommitting e.transaction then s.give k .nothing
  else s.beginCall k thread e.transaction (.abort .ownerReleased)

/-- A participant is enlisted. -/
def enlist (s : Session) (k t : Nat) (plan : ParticipantPlan Step) : Session :=
  match s.world.transactions[t]? with
  | none => s.give k .nothing
  | some x =>
    match x.enlist s.participants.length with
    | .error a => s.give k (.aborted a)
    | .ok x =>
      ({ s with
        world := s.world.modifyTransaction t fun _ => x
        participants := s.participants ++ [plan] } : Session).give k .ok

/-- A dependent is given out. -/
def issue (s : Session) (k t : Nat) (name : String) (mode : DependentMode) : Session :=
  match s.world.transactions[t]? with
  | none => s.give k .nothing
  | some x =>
    ({ s with
      world := s.world.modifyTransaction t fun x => x.issue mode
      dependents := s.dependents ++ [⟨name, t, x.dependents.length, mode⟩] } : Session).give k
        (.issued mode)

/-- The shape of the local identifier of the transaction opened in the given place. -/
def shapeOf (sequence : Nat) : IdentifierShape :=
  let parts := (localIdentifier (Ulid.ofParts 0 0) (sequence + 1)).splitOn ":"
  let first := parts.headD ""
  { parts := parts.length
    ulidLength := first.length
    isLowerCase := first.toList.all fun c => !c.isUpper
    sequence := (parts.getLastD "").toNat?.getD 0 }

/-! ## Diagnostic texts -/

/-- The diagnostic text of a subject. -/
def debugText? (s : Session) : Subject → Option String
  | .unit name => do s.world.unitDiagnostic (← s.world.units[(← s.unit? name).unit]?)
  | .scope name => do s.world.scopeDiagnostic (← s.world.units[(← s.unit? name).unit]?)
  | .transaction name => do
    (← s.world.transactions[(← s.transaction? name).transaction]?).diagnostic
  | .owner name => do
    (← s.world.transactions[(← s.transaction? name).transaction]?).ownerDiagnostic
  | .dependent name => do
    let e ← s.dependent? name
    (← s.world.transactions[e.transaction]?).dependentDiagnostic e.mode
  | .registry name => do s.world.registryDiagnostic (← s.manager? name)

/-! ## Steps -/

/-- The step goes on with a unit of the session. -/
def withUnit (s : Session) (k : Nat) (name : String) (f : UnitEntry → Session) : Session :=
  match s.unit? name with
  | some e => f e
  | none => s.missing k name

/-- The step goes on with a unit that is still held. -/
def withHeld (s : Session) (k : Nat) (name : String) (f : Nat → Session) : Session :=
  s.withUnit k name fun e => if e.held then f e.unit else s.missing k name

/-- The step goes on with a transaction of the session. -/
def withTransaction (s : Session) (k : Nat) (name : String) (f : TransactionEntry → Session) :
    Session :=
  match s.transaction? name with
  | some e => f e
  | none => s.missing k name

/-- The step goes on with a transaction whose owner the session holds. -/
def withOwner (s : Session) (k : Nat) (name : String) (f : TransactionEntry → Session) :
    Session :=
  s.withTransaction k name fun e => if e.owned then f e else s.missing k name

/-- The step goes on with a manager of the session. -/
def withManager (s : Session) (k : Nat) (name : String) (f : Nat → Session) : Session :=
  match s.manager? name with
  | some m => f m
  | none => s.missing k name

/-- The step goes on with a dependent of the session, which is then used up. -/
def releaseDependent (s : Session) (k thread : Nat) (name : String) (completed : Bool) :
    Session :=
  match s.dependent? name with
  | some e =>
    let s := { s with dependents := s.dependents.filter fun x => x.name != name }
    s.beginCall k thread e.transaction (.release e.dependent completed)
  | none => s.missing k name

/-- What a step does to the session, on a thread of a task. -/
def performOn (s : Session) (k thread : Nat) : Deed Step → Session
  | .nothing => s.give k .nothing
  | .addManager name kind => (s.addManager name kind).give k .nothing
  | .setManager name canCommit canDispose =>
    (s.setManager name canCommit canDispose).give k .nothing
  | .ask q unit manager =>
    s.withUnit k unit fun e => s.withManager k manager fun m => s.askManager k thread q e.unit m
  | .contains unit manager =>
    s.withUnit k unit fun e => s.withManager k manager fun m =>
      s.give k (.flag (s.world.keeps m e.unit))
  | .openUnit plan => s.openUnit k thread plan
  | .commit unit =>
    s.withHeld k unit fun u => s.beginOperation k thread fun w => w.beginCommit u thread
  | .rollback unit =>
    s.withHeld k unit fun u => s.beginOperation k thread fun w => w.beginRollback u thread
  | .dispose unit =>
    s.withHeld k unit fun u => s.beginOperation k thread fun w => w.beginRelease u thread false
  | .drop unit => s.withHeld k unit fun u => s.dropUnit k thread u
  | .info unit =>
    s.withHeld k unit fun u =>
      s.give k <| match s.world.transactionInformation u with
        | .ok i => .workInfo i
        | .error v => .violation v
  | .describe unit =>
    s.withUnit k unit fun e =>
      match s.description? e thread with
      | some d => s.give k (.description d)
      | none => s.missing k unit
  | .hasAncestor unit other =>
    s.withUnit k unit fun e => s.withUnit k other fun o =>
      s.give k (.flag (s.world.hasAncestor e.unit o.unit))
  | .sameScope unit other =>
    s.withUnit k unit fun e => s.withUnit k other fun o => s.give k (.flag (e.unit == o.unit))
  | .commitMany units workers =>
    match units.mapM fun u => (s.unit? u).map UnitEntry.unit with
    | none => s.give k (.misuse "a unit of the batch is missing")
    | some units =>
      match workersOf workers with
      | .error e => s.give k (.badSettings e)
      | .ok options => s.commitMany k units options
  | .openTransaction name options =>
    let entry : TransactionEntry := ⟨name, s.world.transactions.length, true⟩
    ({ s with
      world := s.world.openTransaction ("<tx:" ++ name ++ ">") options
      transactions := s.transactions ++ [entry] } : Session).give k .nothing
  | .commitTransaction name =>
    s.withOwner k name fun e => s.beginCall k thread e.transaction .commit
  | .dropTransaction name => s.withOwner k name fun e => s.dropOwner k thread e
  | .rollbackTransaction name why =>
    s.withTransaction k name fun e =>
      s.beginCall k thread e.transaction (.abort (.rolledBack why))
  | .transactionInfo name =>
    s.withTransaction k name fun e =>
      match s.world.transactions[e.transaction]? with
      | some t => s.give k (.info t.information)
      | none => s.missing k name
  | .sameTransaction name other =>
    s.withTransaction k name fun e => s.withTransaction k other fun o =>
      s.give k (.flag (e.transaction == o.transaction))
  | .identify name =>
    s.withTransaction k name fun e =>
      match s.world.transactions[e.transaction]? with
      | some t => s.give k (.shape (shapeOf t.sequence))
      | none => s.missing k name
  | .enlist transaction plan =>
    s.withTransaction k transaction fun e => s.enlist k e.transaction plan
  | .issue transaction name mode =>
    s.withTransaction k transaction fun e => s.issue k e.transaction name mode
  | .completeDependent name => s.releaseDependent k thread name true
  | .dropDependent name => s.releaseDependent k thread name false
  | .debug subject =>
    s.give k <| match s.debugText? subject with
      | some text => .text text
      | none => .misuse "there is nothing to show"
  | .start task thread step wait =>
    let (s, n) := s.threadNumber thread
    let started : Task := ⟨task, n, [.step n step], none⟩
    ({ s with tasks := s.tasks ++ [started] } : Session).push k (.waiting task wait)
  | .gate name => ({ s with entered := s.entered ++ [name] } : Session).push k (.gate name)
  | .release gate task wait =>
    ({ s with released := s.released ++ [gate] } : Session).push k (.waiting task wait)
  | .peek task => s.push k (.pause task (s.later shortWhile))
  | .meet me other =>
    let meeting := Frame.meeting other (s.later meetingTime)
    ({ s with announced := s.announced ++ [me] } : Session).push k meeting

/-- A step is done on the thread it asks for, or on the one at hand. -/
def perform (s : Session) (k thread : Nat) (step : Step) : Session :=
  match step.thread? with
  | none => s.performOn k thread step.deed
  | some name =>
    let (s, thread) := s.threadNumber name
    s.performOn k thread step.deed

end NestedWork.Session
