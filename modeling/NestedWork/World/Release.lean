import NestedWork.World.Manager

/-!
# Releasing units

Rolling back, disposing of and dropping a unit of work.

## Implementation notes

A unit is released at most once, by whoever marks it disposed first. A disposal that the
manager refuses changes nothing. A drop asks as well and does not heed the answer.
-/

namespace NestedWork

namespace World

/-- The manager learns that the unit is disposed, and the release returns. -/
def bidFarewell (w : World) (c u : Nat) : World :=
  match w.units[u]? with
  | none => w
  | some x =>
    if w.isExternal x.manager then w.moveTo c .farewell
    else (w.forget x.manager u).moveTo c (.done .returned)

/-- The resources are gone, and a root gives up its handle on the transaction. -/
def resourcesDisposed (w : World) (c u : Nat) : World :=
  match w.units[u]? with
  | none => w
  | some x =>
    if !x.isRoot then w.bidFarewell c u
    else match x.slot with
      | .live t =>
        let w := w.modifyUnit u fun x => { x with slot := .released, handles := x.handles - 1 }
        if x.handles ≤ 1 then
          let (w, inner) := w.call t (.abort .ownerReleased)
          match w.result? inner with
          | some _ => w.bidFarewell c u
          | none => w.moveTo c (.surrender inner)
        else w.bidFarewell c u
      | _ => (w.modifyUnit u fun x => { x with slot := .released }).bidFarewell c u

/-- The manager has answered whether the unit may be disposed. -/
def permitted (w : World) (c u : Nat) (dropping allowed : Bool) : World :=
  match w.units[u]? with
  | none => w
  | some x =>
    if (!allowed && !dropping) || x.disposed then w.moveTo c (.done .returned)
    else (w.modifyUnit u fun x => { x with disposed := true }).moveTo c .disposal

/-- Begins to dispose of a unit or to drop it. -/
def beginRelease (w : World) (u thread : Nat) (dropping : Bool) : World :=
  match w.units[u]? with
  | none => w
  | some x =>
    if x.disposed then w.push ⟨u, thread, .done .returned⟩
    else
      let c := w.operations.length
      let w := w.push ⟨u, thread, .permission dropping⟩
      match w.permits? x.manager u with
      | some allowed => w.permitted c u dropping allowed
      | none => w

/-- Begins to roll a unit back. -/
def beginRollback (w : World) (u thread : Nat) : World := w.push ⟨u, thread, .rollback⟩

end World

end NestedWork
