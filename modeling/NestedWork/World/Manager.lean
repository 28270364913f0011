import NestedWork.World.Basic

/-!
# Ambient managers

What a manager answers about a unit, and what it keeps.

## Implementation notes

A registry looks for descendants among the units it keeps, by their ancestors. It finds them
also behind a unit that it does not keep.
-/

namespace NestedWork

namespace World

/-- The kept units that have the given one among their ancestors. -/
def descendantsIn (w : World) (live : List Nat) (u : Nat) : List Nat :=
  live.filter fun v => w.hasAncestor v u

/-- A registry lets a unit commit once every kept descendant is closed. -/
def registryAdmits (w : World) (live : List Nat) (u : Nat) : Bool :=
  (w.descendantsIn live u).all w.isClosed

/-- A registry lets a unit be disposed once no descendant is kept. -/
def registryPermits (w : World) (live : List Nat) (u : Nat) : Bool :=
  (w.descendantsIn live u).isEmpty

/-- Whether a manager lets a unit commit, if that is decided in this world. -/
def admits? (w : World) (m u : Nat) : Option Bool :=
  match w.managers[m]? with
  | some .permissive | none => some true
  | some (.registry live) => some (w.registryAdmits live u)
  | some .external => none

/-- Whether a manager lets a unit be disposed, if that is decided in this world. -/
def permits? (w : World) (m u : Nat) : Option Bool :=
  match w.managers[m]? with
  | some .permissive | none => some true
  | some (.registry live) => some (w.registryPermits live u)
  | some .external => none

/-- A manager is told in this world of what happens to units. -/
def isExternal (w : World) (m : Nat) : Bool := w.managers[m]? == some .external

/-- A registry takes a unit up. -/
def register (w : World) (m u : Nat) : World :=
  { w with managers := w.managers.modify m fun
      | .registry live => .registry (if live.contains u then live else live ++ [u])
      | other => other }

/-- A registry lets go of a unit. -/
def forget (w : World) (m u : Nat) : World :=
  { w with managers := w.managers.modify m fun
      | .registry live => .registry (live.filter fun v => v != u)
      | other => other }

/-- A registry keeps a unit. -/
def keeps (w : World) (m u : Nat) : Bool :=
  match w.managers[m]? with
  | some (.registry live) => live.contains u
  | _ => false

/-- The number of units that a registry keeps. -/
def keptCount (w : World) (m : Nat) : Nat :=
  match w.managers[m]? with
  | some (.registry live) => live.length
  | _ => 0

end World

end NestedWork
