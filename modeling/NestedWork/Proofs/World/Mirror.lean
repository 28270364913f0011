import NestedWork.Proofs.World.Naming
import NestedWork.Proofs.World.Within

/-!
# A part of the world

What is found in a part of the world is found under its other names in the whole, and a change of
one thing can be made on both sides.

## Implementation notes

The relation between the part and the whole fails in one case: a commit that waits for others
depends on the time, which the part does not know. A call is made on both sides alike unless it ends
up waiting.
-/

namespace NestedWork.World

/-- No call waits to be woken. -/
def isAwake (w : World) : Bool := w.transactions.all fun t => t.calls.all fun c => !c.point.waits

/-- A part of the world is what the names pick out of the whole, and the rest of the whole is as it
was in a third world. -/
structure Mirrors (ν : Naming) (b l w : World) : Prop where
  injective : ν.Injective
  /-- No other unit stands below one that is named. -/
  strangers : ∀ {j : Nat} {x : UnitOfWork}, ¬ ν.Names j → b.units[j]? = some x →
    ∀ a ∈ x.lineage, ¬ ν.Names a
  units : Table (fun _ x y => y = x.rename ν) ν.unit b.units l.units w.units
  transactions : Table (fun n x y => y.timeless n = x) ν.transaction b.transactions l.transactions
    w.transactions
  operations : Table (fun _ o o' => o' = o.rename ν) ν.operation b.operations l.operations
    w.operations
  kept : ∀ p : Nat → Bool, (∀ u, p u = true ↔ ν.Names u) →
    w.managers.map (Manager.keep p) = l.managers.map (Manager.rename ν)
  left : ∀ p : Nat → Bool, (∀ u, p u = true → ¬ ν.Names u) →
    w.managers.map (Manager.keep p) = b.managers.map (Manager.keep p)
  now : l.now = .zero
  epoch : l.epoch = ⟨0, 0⟩
  seated : ∀ o ∈ l.operations, o.unit < l.units.length

variable {ν : Naming} {b l w : World} {c u n : Nat}

theorem isWaiting_of_isAwake (awake : w.isAwake = true) {t : Transaction}
    (there : w.transactions[n]? = some t) (i : Nat) : t.isWaiting i = false := by
  have calls := List.all_eq_true.mp awake t (List.mem_of_getElem? there)
  simp only [Transaction.isWaiting, Transaction.point?]
  cases call : t.calls[i]? with
  | none => rfl
  | some c => simpa using List.all_eq_true.mp calls c (List.mem_of_getElem? call)

theorem isWaiting_of_result? {i : Inner} {r : Except Aborted Unit} (returned : w.result? i = some r)
    {t : Transaction} (there : w.transactions[i.transaction]? = some t) :
    t.isWaiting i.call = false := by
  simp only [World.result?, there, Transaction.result?] at returned
  cases reached : t.point? i.call with
  | none => simp [Transaction.isWaiting, reached]
  | some p =>
      cases p with
      | finished => simp [Transaction.isWaiting, reached, Point.waits]
      | _ => simp [reached] at returned

namespace Mirrors

/-! ## What is found -/

theorem unit (h : Mirrors ν b l w) (u : Nat) :
    w.units[ν.unit u]? = (l.units[u]?).map (UnitOfWork.rename ν) := by
  cases there : l.units[u]? with
  | none => exact h.units.eq_none there
  | some x =>
      obtain ⟨y, there', rfl⟩ := h.units.exists_whole there
      exact there'

theorem operation (h : Mirrors ν b l w) (c : Nat) :
    w.operations[ν.operation c]? = (l.operations[c]?).map (Operation.rename ν) := by
  cases there : l.operations[c]? with
  | none => exact h.operations.eq_none there
  | some o =>
      obtain ⟨o', there', rfl⟩ := h.operations.exists_whole there
      exact there'

theorem transaction (h : Mirrors ν b l w) (n : Nat) :
    l.transactions[n]? = (w.transactions[ν.transaction n]?).map fun t => t.timeless n := by
  cases there : w.transactions[ν.transaction n]? with
  | none =>
      cases there' : l.transactions[n]? with
      | none => rfl
      | some t =>
          obtain ⟨t', there'', -⟩ := h.transactions.exists_whole there'
          rw [there] at there''
          cases there''
  | some t =>
      obtain ⟨t', there', rfl⟩ := h.transactions.exists_part there
      exact there'

theorem result? (h : Mirrors ν b l w) (i : Inner) : w.result? (i.rename ν) = l.result? i := by
  simp only [World.result?, h.transaction, Inner.rename]
  cases w.transactions[ν.transaction i.transaction]? <;> simp

theorem rootOf (h : Mirrors ν b l w) (u : Nat) : w.rootOf (ν.unit u) = ν.unit (l.rootOf u) := by
  simp only [World.rootOf, h.unit]
  cases l.units[u]? with
  | none => rfl
  | some x =>
      simp only [Option.map_some, UnitOfWork.rename, List.getLastD_eq_getLast?, List.getLast?_map]
      cases x.lineage.getLast? <;> rfl

theorem isClosed (h : Mirrors ν b l w) (u : Nat) : w.isClosed (ν.unit u) = l.isClosed u := by
  simp only [World.isClosed, h.unit]
  cases l.units[u]? <;> rfl

theorem hasAncestor (h : Mirrors ν b l w) (v u : Nat) :
    w.hasAncestor (ν.unit v) (ν.unit u) = l.hasAncestor v u := by
  simp only [World.hasAncestor, h.unit]
  cases l.units[v]? with
  | none => rfl
  | some x =>
      simp only [Option.map_some, UnitOfWork.rename]
      rw [Bool.eq_iff_iff]
      simp [h.injective.unit.eq_iff]

/-- Only units that are named stand below one that is. -/
theorem names_of_hasAncestor (h : Mirrors ν b l w) {v : Nat}
    (below : w.hasAncestor v (ν.unit u) = true) : ν.Names v := by
  by_contra stranger
  simp only [World.hasAncestor] at below
  rw [h.units.others v fun i eq => stranger ⟨i, eq⟩] at below
  split at below
  next x unit =>
    exact h.strangers stranger unit _ (by simpa using below) ⟨u, rfl⟩
  next => cases below

/-! ## Managers -/

/-- A manager is the same on both sides, or a registry that keeps in the part what it keeps of it in
the whole. -/
theorem manager (h : Mirrors ν b l w) (m : Nat) :
    (w.managers[m]? = l.managers[m]? ∧ ∀ live, l.managers[m]? ≠ some (.registry live)) ∨
      ∃ live live', w.managers[m]? = some (.registry live) ∧
        l.managers[m]? = some (.registry live') ∧
          ∀ p : Nat → Bool, (∀ u, p u = true ↔ ν.Names u) → live.filter p = live'.map ν.unit := by
  have same (p : Nat → Bool) (own : ∀ u, p u = true ↔ ν.Names u) :
      (w.managers[m]?).map (Manager.keep p) = (l.managers[m]?).map (Manager.rename ν) := by
    rw [← List.getElem?_map, ← List.getElem?_map, h.kept p own]
  classical
  have here := same (fun u => decide (ν.Names u)) (by simp)
  cases left : w.managers[m]? with
  | none =>
      cases right : l.managers[m]? with
      | none => exact .inl ⟨rfl, by simp⟩
      | some N => simp [left, right] at here
  | some M =>
      cases right : l.managers[m]? with
      | none => simp [left, right] at here
      | some N =>
          simp only [left, right, Option.map_some, Option.some.injEq] at here same
          cases N with
          | registry live' =>
              cases M with
              | registry live =>
                  refine .inr ⟨live, live', rfl, rfl, fun p own => ?_⟩
                  simpa [Manager.keep, Manager.rename] using same p own
              | _ => cases here
          | permissive =>
              cases M with
              | permissive => exact .inl ⟨rfl, by simp⟩
              | _ => cases here
          | external =>
              cases M with
              | external => exact .inl ⟨rfl, by simp⟩
              | _ => cases here

/-- The descendants of a unit are found in the part. -/
theorem descendantsIn (h : Mirrors ν b l w) (u : Nat) {live live' : List Nat}
    (kept : ∀ p : Nat → Bool, (∀ u, p u = true ↔ ν.Names u) → live.filter p = live'.map ν.unit) :
    w.descendantsIn live (ν.unit u) = (l.descendantsIn live' u).map ν.unit := by
  classical
  have own := kept (fun v => decide (ν.Names v)) (by simp)
  calc live.filter (fun v => w.hasAncestor v (ν.unit u))
    _ = (live.filter fun v => decide (ν.Names v)).filter
          fun v => w.hasAncestor v (ν.unit u) := by
      rw [List.filter_filter]
      refine List.filter_congr fun v _ => ?_
      cases below : w.hasAncestor v (ν.unit u) with
      | false => rfl
      | true => simp [h.names_of_hasAncestor below]
    _ = (live'.filter fun v => l.hasAncestor v u).map ν.unit := by
      rw [own, List.filter_map]
      simp [Function.comp_def, h.hasAncestor]

theorem admits? (h : Mirrors ν b l w) (m u : Nat) : w.admits? m (ν.unit u) = l.admits? m u := by
  rcases h.manager m with ⟨same, other⟩ | ⟨live, live', left, right, kept⟩
  · simp only [World.admits?, same]
    cases there : l.managers[m]? with
    | none => rfl
    | some M =>
        cases M with
        | registry live => exact absurd there (other live)
        | _ => rfl
  · simp only [World.admits?, left, right, registryAdmits, h.descendantsIn u kept, List.all_map,
      Function.comp_def, h.isClosed]

theorem permits? (h : Mirrors ν b l w) (m u : Nat) : w.permits? m (ν.unit u) = l.permits? m u := by
  rcases h.manager m with ⟨same, other⟩ | ⟨live, live', left, right, kept⟩
  · simp only [World.permits?, same]
    cases there : l.managers[m]? with
    | none => rfl
    | some M =>
        cases M with
        | registry live => exact absurd there (other live)
        | _ => rfl
  · simp only [World.permits?, left, right, registryPermits, h.descendantsIn u kept,
      List.isEmpty_map]

theorem isExternal (h : Mirrors ν b l w) (m : Nat) : w.isExternal m = l.isExternal m := by
  rcases h.manager m with ⟨same, -⟩ | ⟨live, live', left, right, -⟩
  · simp only [World.isExternal, same]
  · simp [World.isExternal, left, right]

/-! ## What is changed -/

/-- A unit is changed in the same way on both sides. -/
theorem modifyUnit (h : Mirrors ν b l w) (u : Nat) (f g : UnitOfWork → UnitOfWork)
    (same : ∀ x, g (x.rename ν) = (f x).rename ν) :
    Mirrors ν b (l.modifyUnit u f) (w.modifyUnit (ν.unit u) g) :=
  { h with
    units := h.units.modify h.injective.unit u fun x y _ eq => by rw [eq, same]
    seated := fun o mem => by simpa [World.modifyUnit] using h.seated o mem }

/-- A transaction is changed in the same way on both sides, but for the time. -/
theorem modifyTransaction (h : Mirrors ν b l w) (n : Nat) {f g : Transaction → Transaction}
    (same : ∀ t, l.transactions[n]? = some (t.timeless n) → (g t).timeless n = f (t.timeless n)) :
    Mirrors ν b (l.modifyTransaction n f) (w.modifyTransaction (ν.transaction n) g) :=
  { h with
    transactions := h.transactions.modify h.injective.transaction n fun x y there eq => by
      subst eq
      exact same y there }

theorem moveTo (h : Mirrors ν b l w) (c : Nat) (s : Stage) :
    Mirrors ν b (l.moveTo c s) (w.moveTo (ν.operation c) (s.rename ν)) :=
  { h with
    operations := h.operations.modify h.injective.operation c fun x y _ eq => by rw [eq]; rfl
    seated := by
      intro o mem
      obtain ⟨d, there⟩ := List.mem_iff_getElem?.mp mem
      simp only [World.moveTo, List.getElem?_modify] at there
      obtain ⟨o', there', rfl⟩ := Option.map_eq_some_iff.mp there
      have seat := h.seated o' (List.mem_of_getElem? there')
      split <;> exact seat }

theorem push (h : Mirrors ν b l w) {o : Operation} (seat : o.unit < l.units.length) :
    Mirrors ν b (l.push o) (w.push (o.rename ν)) :=
  { h with
    operations := h.operations.append h.injective.operation rfl
    seated := by
      intro o' mem
      rcases List.mem_append.mp mem with old | new
      · exact h.seated o' old
      · rw [List.mem_singleton.mp new]
        exact seat }

/-- A further unit takes the next number on both sides. -/
theorem appendUnit (h : Mirrors ν b l w) (x : UnitOfWork) :
    Mirrors ν b { l with units := l.units ++ [x] } { w with units := w.units ++ [x.rename ν] } :=
  { h with
    units := h.units.append h.injective.unit rfl
    seated := fun o mem => by
      have seat := h.seated o mem
      simp only [List.length_append, List.length_singleton]
      omega }

theorem timestamp_zero : (⟨0, 0⟩ : Calendar.Timestamp).add .zero = ⟨0, 0⟩ := rfl

/-- A further transaction is opened on both sides, at different times. -/
theorem openTransaction (h : Mirrors ν b l w) (localId : String) (options : TransactionOptions) :
    Mirrors ν b (l.openTransaction localId options) (w.openTransaction localId options) :=
  { h with
    transactions := by
      refine h.transactions.append h.injective.transaction ?_
      rw [h.now, h.epoch, timestamp_zero]
      rfl }

/-- A manager is changed in the same way on both sides. -/
theorem modifyManager (h : Mirrors ν b l w) (m : Nat) {f g : Manager → Manager}
    (kept : ∀ (p : Nat → Bool) (M N : Manager), (∀ u, p u = true ↔ ν.Names u) →
      M.keep p = N.rename ν → (g M).keep p = (f N).rename ν)
    (left : ∀ (p : Nat → Bool) (M : Manager), (∀ u, p u = true → ¬ ν.Names u) →
      (g M).keep p = M.keep p) :
    Mirrors ν b { l with managers := l.managers.modify m f }
      { w with managers := w.managers.modify m g } :=
  { h with
    kept := by
      intro p own
      have same := h.kept p own
      refine List.ext_getElem? fun j => ?_
      have here := congrArg (fun ms => ms[j]?) same
      simp only [List.getElem?_map, List.getElem?_modify] at here ⊢
      cases left : w.managers[j]? with
      | none =>
          cases right : l.managers[j]? with
          | none => rfl
          | some N => simp [left, right] at here
      | some M =>
          cases right : l.managers[j]? with
          | none => simp [left, right] at here
          | some N =>
              simp only [left, right, Option.map_some, Option.some.injEq] at here
              by_cases hit : m = j
              · simpa [hit] using kept p M N own here
              · simpa [hit] using here
    left := by
      intro p away
      rw [← h.left p away]
      exact map_modify_of_eq (fun M => left p M away) w.managers m }

theorem register (h : Mirrors ν b l w) (m u : Nat) :
    Mirrors ν b (l.register m u) (w.register m (ν.unit u)) := by
  refine h.modifyManager m ?_ ?_
  · intro p M N own same
    have named : p (ν.unit u) = true := (own _).mpr ⟨u, rfl⟩
    cases N with
    | registry live' =>
        cases M with
        | registry live =>
            have same : live.filter p = live'.map ν.unit := by
              simpa [Manager.keep, Manager.rename] using same
            have known : ν.unit u ∈ live ↔ u ∈ live' := by
              calc ν.unit u ∈ live
                _ ↔ ν.unit u ∈ live.filter p := by simp [named]
                _ ↔ u ∈ live' := by rw [same, List.mem_map_of_injective h.injective.unit]
            by_cases mem : u ∈ live'
            · simp [mem, known.mpr mem, Manager.keep, Manager.rename, same]
            · have mem' : ν.unit u ∉ live := fun there => mem (known.mp there)
              simp [mem, mem', Manager.keep, Manager.rename, same, named]
        | _ => cases same
    | _ =>
        cases M with
        | registry => cases same
        | _ => exact same
  · intro p M away
    have other : p (ν.unit u) ≠ true := fun own => away _ own ⟨u, rfl⟩
    cases M with
    | registry live =>
        dsimp only
        split
        · rfl
        · simp [Manager.keep, other]
    | _ => rfl

theorem forget (h : Mirrors ν b l w) (m u : Nat) :
    Mirrors ν b (l.forget m u) (w.forget m (ν.unit u)) := by
  refine h.modifyManager m ?_ ?_
  · intro p M N own same
    cases N with
    | registry live' =>
        cases M with
        | registry live =>
            have same : live.filter p = live'.map ν.unit := by
              simpa [Manager.keep, Manager.rename] using same
            simp only [Manager.keep, Manager.rename, Manager.registry.injEq]
            calc (live.filter fun v => v != ν.unit u).filter p
              _ = (live.filter p).filter fun v => v != ν.unit u := by
                simp only [List.filter_filter, Bool.and_comm]
              _ = (live'.filter fun v => v != u).map ν.unit := by
                rw [same, List.filter_map]
                congr 2
                funext v
                simp [h.injective.unit.eq_iff, bne, Bool.beq_eq_decide_eq]
        | _ => cases same
    | _ =>
        cases M with
        | registry => cases same
        | _ => exact same
  · intro p M away
    cases M with
    | registry live =>
        simp only [Manager.keep, List.filter_filter]
        congr 1
        refine List.filter_congr fun v _ => ?_
        by_cases own : p v = true
        · have ne : v ≠ ν.unit u := fun eq => away v own ⟨u, eq.symm⟩
          simp [own, ne]
        · simp [own]
    | _ => rfl

/-! ## Calls -/

/-- A call is made in the same way on both sides, if it does not end up waiting. -/
theorem call (h : Mirrors ν b l w) (n : Nat) (purpose : Purpose)
    (free : ∀ t, (l.call n purpose).1.transactions[n]? = some t →
      t.isWaiting (l.call n purpose).2.call = false) :
    Mirrors ν b (l.call n purpose).1 (w.call (ν.transaction n) purpose).1 ∧
      (w.call (ν.transaction n) purpose).2 = (l.call n purpose).2.rename ν := by
  cases there : w.transactions[ν.transaction n]? with
  | none =>
      have absent := h.transaction n
      rw [there, Option.map_none] at absent
      simp only [World.call, there, absent]
      exact ⟨h.modifyTransaction n fun t there' => (by simp [absent] at there'), rfl⟩
  | some t =>
      have here := h.transaction n
      rw [there, Option.map_some] at here
      have place : (l.call n purpose).2.call = t.calls.length := by simp [World.call, here]
      have calm (t' : Transaction) (there' : l.transactions[n]? = some (t'.timeless n)) :
          (((t'.begin purpose).timeless n).settle .zero t.calls.length).isWaiting t.calls.length =
            false := by
        rw [← place, Transaction.timeless_begin]
        refine free _ ?_
        simp [World.call, World.modifyTransaction, there', h.now]
      simp only [World.call, there, here, Transaction.length_calls_timeless, Inner.rename,
        and_true]
      refine h.modifyTransaction n fun t' there' => ?_
      rw [h.now, Transaction.timeless_settle _ _ _ _ (calm t' there'), Transaction.timeless_begin]

/-- Whatever is asked of a transaction but to commit is asked in the same way on both sides. -/
theorem call_of_ne (h : Mirrors ν b l w) (n : Nat) (purpose : Purpose) (other : purpose ≠ .commit) :
    Mirrors ν b (l.call n purpose).1 (w.call (ν.transaction n) purpose).1 ∧
      (w.call (ν.transaction n) purpose).2 = (l.call n purpose).2.rename ν := by
  refine h.call n purpose fun t there => ?_
  obtain ⟨t₀, there', rfl⟩ : ∃ t₀, l.transactions[n]? = some t₀ ∧
      (t₀.begin purpose).settle l.now (l.call n purpose).2.call = t := by
    simpa [World.call, World.modifyTransaction] using there
  have place : (l.call n purpose).2.call = t₀.calls.length := by simp [World.call, there']
  rw [place]
  exact Transaction.isWaiting_of_isCalm
    (Transaction.isCalm_settleIn (Transaction.isCalm_begin t₀ other) l.now _)

end Mirrors

end NestedWork.World
