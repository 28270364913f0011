import NestedWork.World.Manager

/-!
# Diagnostic texts of the world

How units, transactions, handles and registries are shown to developers.
-/

namespace NestedWork

namespace Transaction

/-- The diagnostic text of a transaction. -/
def diagnostic (t : Transaction) : String :=
  Diagnostic.record "Transaction"
    [("local_id", Diagnostic.quoted t.localId), ("isolation", t.isolation.label),
      ("status", t.status.label)]

/-- The diagnostic text of the handle that owns a transaction. -/
def ownerDiagnostic (t : Transaction) : String :=
  Diagnostic.applied "CommittableTransaction" t.diagnostic

/-- The diagnostic text of a dependent of a transaction. -/
def dependentDiagnostic (t : Transaction) (mode : DependentMode) : String :=
  Diagnostic.record "DependentTransaction"
    [("transaction", t.diagnostic), ("option", mode.label)]

end Transaction

namespace World

/-- The identifier of a unit. -/
def idOf (w : World) (u : Nat) : String :=
  match w.units[u]? with
  | some x => x.id
  | none => ""

/-- The diagnostic text of a unit as its tree sees it. -/
def scopeDiagnostic (w : World) (x : UnitOfWork) : String :=
  Diagnostic.record "UnitScope"
    [("id", x.id),
      ("parent", match x.parent? with
        | some p => Diagnostic.applied "Some" (w.idOf p)
        | none => "None"),
      ("status", x.status.label), ("disposed", Diagnostic.flag x.disposed)]

/-- The diagnostic text of a unit. -/
def unitDiagnostic (w : World) (x : UnitOfWork) : String :=
  Diagnostic.record "ScopedUnitOfWork"
    [("scope", w.scopeDiagnostic x), ("options", Diagnostic.options x.options)]

/-- The diagnostic text of what a commit works in. -/
def workDiagnostic (w : World) (s : Scope) : String :=
  Diagnostic.record "TransactionScope"
    [("transaction", match w.transactions[s.transaction]? with
        | some t => t.diagnostic
        | none => ""),
      ("kind", s.kind.label), ("timeout", Diagnostic.duration s.timeout)]

/-- The diagnostic text of a registry. -/
def registryDiagnostic (w : World) (m : Nat) : String :=
  Diagnostic.record "ScopeRegistry" [("live_count", toString (w.keptCount m))]

end World

end NestedWork
