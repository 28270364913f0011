import NestedWork.Session.State

/-!
# Callbacks

What the capabilities, managers and participants of a session report and do when they are
called, and what they answer.
-/

namespace NestedWork.Session

/-- Someone is called: the session with the report of it, who is called, and the steps that
follow. -/
structure Announcement where
  session : Session
  owner : String
  steps : List Step

/-- The steps of a scripted manager for a question. -/
def managerSteps (kind : ManagerKind Step) (q : Question) : List Step :=
  match kind, q with
  | .scripted plan, .canCommit => plan.onCanCommit
  | .scripted plan, .canDispose => plan.onCanDispose
  | .scripted plan, .disposed => plan.onDisposed
  | _, _ => []

/-- A manager is asked or told of a unit. -/
def announceQuestion (s : Session) (m : Nat) (q : Question) (u : Nat) : Announcement :=
  match s.managers[m]?, s.world.units[u]? with
  | some e, some x =>
    let h :=
      if q = .opened then Happening.opened x.lineage.length x.status
      else .question q (s.nameOf u) x.status x.disposed
    ⟨s.tell e.name h, e.name, managerSteps e.kind q⟩
  | _, _ => ⟨s, "", []⟩

/-- The transaction of a tree gets the name of the root with the first work in it. -/
def nameTransaction (s : Session) (u t : Nat) : Session :=
  let name := s.nameOf (s.world.rootOf u)
  match s.transaction? name with
  | some _ => s
  | none => { s with transactions := s.transactions ++ [⟨name, t, false⟩] }

/-- The work of a unit as its capability sees it. -/
def workEvent? (s : Session) (u thread : Nat) (scope : Scope) : Option WorkEvent := do
  let x ← s.world.units[u]?
  let t ← s.world.transactions[scope.transaction]?
  return {
    kind := scope.kind
    timeout := scope.timeout
    ownThread := scope.thread == thread
    scopeThread := x.thread == thread
    status := x.status
    localId := t.localId
    transactionStatus := t.status
    isolation := t.isolation
    outstanding := some t.outstanding
    thread }

/-- The capability of a unit works. -/
def announceWork (s : Session) (u thread : Nat) (scope : Scope) : Announcement :=
  match s.entryOf? u with
  | none => ⟨s, "", []⟩
  | some e =>
    let s := s.nameTransaction u scope.transaction
    let s := match s.workEvent? u thread scope with
      | some w => s.tell e.plan.name (.work w)
      | none => s
    let s :=
      if e.plan.showsScope then s.tell e.plan.name (.scope (s.world.workDiagnostic scope)) else s
    ⟨s, e.plan.name, e.plan.onCommit⟩

/-- The capability of a unit is called for something else than work. -/
def announceCapability (s : Session) (u : Nat) (h : Happening)
    (steps : UnitPlan Step → List Step) : Announcement :=
  match s.entryOf? u with
  | none => ⟨s, "", []⟩
  | some e => ⟨s.tell e.plan.name h, e.plan.name, steps e.plan⟩

/-- A participant is called. -/
def announceParticipant (s : Session) (member : Enlistment) (h : Happening)
    (steps : ParticipantPlan Step → List Step) : Announcement :=
  match s.participants[member.participant]? with
  | none => ⟨s, "", []⟩
  | some p => ⟨s.tell p.name h, p.name, steps p⟩

/-- Whoever is needed is called. -/
def announce (s : Session) (thread : Nat) : Need → Option Announcement
  | .manager q u => do
    let x ← s.world.units[u]?
    return s.announceQuestion x.manager q u
  | .work u scope => some (s.announceWork u thread scope)
  | .rollBack u => some (s.announceCapability u .rollback UnitPlan.onRollback)
  | .dispose u => some (s.announceCapability u .dispose UnitPlan.onDispose)
  | .prepare member info =>
    some (s.announceParticipant member (.prepare info) ParticipantPlan.onPrepare)
  | .tell .commit member info =>
    some (s.announceParticipant member (.outcome .commit info) ParticipantPlan.onCommit)
  | .tell .rollback member info =>
    some (s.announceParticipant member (.outcome .rollback info) ParticipantPlan.onRollback)
  | .wakening _ | .turn | .nothing => none

/-- What a manager of the session permits, by its flags as they are now. -/
def allows (s : Session) (m : Nat) (q : Question) (u : Nat) : Bool :=
  match (s.managers[m]?).map ManagerEntry.kind, q with
  | some (.scripted plan), .canCommit => plan.canCommit
  | some (.scripted plan), .canDispose => plan.canDispose
  | _, .canCommit => (s.world.admits? m u).getD true
  | _, .canDispose => (s.world.permits? m u).getD true
  | _, _ => true

/-- What those who were called answer. -/
def reply (s : Session) : Need → Reply
  | .manager q u =>
    match q with
    | .opened | .disposed => .done
    | q => .allowed (match s.world.units[u]? with
      | some x => s.allows x.manager q u
      | none => true)
  | .work u _ =>
    match (s.entryOf? u).bind fun e => e.plan.failure with
    | some e => .response (.error e)
    | none => .response (.data ())
  | .prepare member _ =>
    match s.participants[member.participant]? with
    | some p => .vote p.vote
    | none => .vote .prepared
  | _ => .done

end NestedWork.Session
