import NestedWork.Proofs.World.Timeout

/-!
# What opening a unit changes

An opening is refused before anything has changed, for a negative timeout or for a level that is not
the parent's. An opening that succeeds adds one unit. Of what was there before, it changes the
timeouts of the new unit's ancestors and that of the transaction that their root holds, and nothing
else.

## Implementation notes

The ancestors are lowered one after another, and the transaction with the root. No other ancestor
holds it, so it is lowered once, whatever the order.

The calls that were made on a transaction are kept with it. Lowering its timeout is such a call, and
it wakes the commits that wait. Both are seen in the calls, not in what a transaction shows.
-/

namespace NestedWork

namespace Transaction

variable {t : Transaction} {i : Nat}

/-- The transaction after a request that its timeout be no longer than a given one. The commits that
wait are woken if it was longer, and the request has returned. -/
def lowered (d : Duration) (t : Transaction) : Transaction :=
  { t with
    timeout := min t.timeout d
    calls := (if d < t.timeout then t.calls.map Call.wake else t.calls) ++
      [⟨.lower d, .finished (.ok ())⟩] }

theorem settleIn_of_finished {r : Except Aborted Unit} (finished : t.point? i = some (.finished r))
    (now : Instant) (n : Nat) : settleIn now i n t = t := by
  induction n with
  | zero => rfl
  | succ n ih =>
      have same : t.advance now i = t := by simp [advance, finished]
      rw [settleIn, same, ih]

/-- A request to lower the timeout goes through at once. -/
theorem settle_begin_lower (t : Transaction) (now : Instant) (d : Duration) :
    (t.begin (.lower d)).settle now t.calls.length = t.lowered d := by
  have returned : (t.lowered d).point? t.calls.length = some (.finished (.ok ())) := by
    by_cases lt : d < t.timeout <;> simp [point?, lowered, lt]
  by_cases lt : d < t.timeout
  · have begun : t.begin (.lower d) =
        { t with timeout := d, calls := t.calls ++ [⟨.lower d, .waking none⟩] } := by
      simp [Transaction.begin, enter, shorten, lt]
    have woken := modify_middle (t.calls.map Call.wake) ⟨.lower d, .waking none⟩ []
      fun c => { c with point := .finished (.ok ()) }
    rw [List.length_map] at woken
    have first : (t.begin (.lower d)).advance now t.calls.length = t.lowered d := by
      rw [begun]
      simp only [advance, point?, List.getElem?_concat_length, Option.map_some, wakeAll, moveTo,
        lowered, min_eq_right lt.le, if_pos lt, List.map_append, List.map_cons, List.map_nil]
      exact congrArg (fun calls => { t with timeout := d, calls := calls }) woken
    rw [settle, stride, settleIn, first, settleIn_of_finished returned]
  · have first : t.begin (.lower d) = t.lowered d := by
      simp [Transaction.begin, enter, shorten, lt, lowered, min_eq_left (le_of_not_gt lt)]
    rw [settle, first, settleIn_of_finished returned]

end Transaction

namespace World

variable {w w' : World} {n p r u v : Nat} {x y : UnitOfWork} {t : Transaction} {o : Opening}
  {d : Duration}

/-! ## Lowering the transaction of a root -/

/-- Lowering the timeout of a unit lowers that of a transaction: the unit holds it and has a longer
timeout. -/
def lowers (w : World) (d : Duration) (n v : Nat) : Bool :=
  (w.units[v]?).any fun y => y.slot == .live n && decide (d < y.options.timeout)

theorem lowers_iff : w.lowers d n v = true ↔
    ∃ y, w.units[v]? = some y ∧ y.slot = .live n ∧ d < y.options.timeout := by
  cases unit : w.units[v]? <;> simp [lowers, unit]

theorem call_lower (w : World) (n : Nat) (d : Duration) :
    (w.call n (.lower d)).1 = w.modifyTransaction n (Transaction.lowered d) := by
  have same : (w.transactions.modify n fun t =>
      (t.begin (.lower d)).settle w.now (w.callsOn n)) =
      w.transactions.modify n (Transaction.lowered d) := by
    apply List.ext_getElem?
    intro k
    by_cases here : n = k
    · subst here
      cases transaction : w.transactions[n]? with
      | none => simp [transaction]
      | some t => simp [transaction, callsOn, Transaction.settle_begin_lower]
    · simp [here]
  rw [modifyTransaction, ← same, call, modifyTransaction, callsOn]
  cases w.transactions[n]? <;> rfl

theorem transactions_lowerUnit (w : World) (v : Nat) (d : Duration) (n : Nat) :
    (w.lowerUnit v d).transactions[n]? =
      (w.transactions[n]?).map fun t => if w.lowers d n v then t.lowered d else t := by
  have id : (w.transactions[n]?).map (fun t : Transaction => t) = w.transactions[n]? :=
    Option.map_id'
  unfold lowerUnit
  split
  next none => simp [lowers, none]
  next y unit =>
    split
    next le => simp [lowers, unit, not_lt_of_ge le]
    next lt =>
      have lt := lt_of_not_ge lt
      dsimp only
      split
      next m live =>
        rw [call_lower]
        by_cases same : m = n
        · subst same
          simp [lowers, unit, live, lt, modifyTransaction, modifyUnit]
        · simp [lowers, unit, live, same, modifyTransaction, modifyUnit]
      next other =>
        have none : y.slot ≠ .live n := other n
        simp [lowers, unit, none, modifyUnit]

/-- A unit that is lowered lowers nothing any more. -/
theorem lowers_lowerUnit (w : World) (v : Nat) (d : Duration) (n r : Nat) :
    (w.lowerUnit v d).lowers d n r = (w.lowers d n r && r != v) := by
  rw [lowers, units_lowerUnit, lowers]
  cases unit : w.units[r]? with
  | none => rfl
  | some y => by_cases same : r = v <;> simp [same]

/-- A transaction is lowered once, by the unit that holds it. -/
theorem transactions_lowerUnits (order : w.Orderly) (vs : List Nat) (d : Duration) (n : Nat) :
    (vs.foldl (fun w v => w.lowerUnit v d) w).transactions[n]? =
      (w.transactions[n]?).map fun t => if vs.any (w.lowers d n) then t.lowered d else t := by
  induction vs generalizing w with
  | nil => simp
  | cons v rest ih =>
      have order' : (w.lowerUnit v d).Orderly :=
        (w.steps_lowerUnit v d).preserve order fun order step _ => order.step step
      rw [List.foldl_cons, ih order', transactions_lowerUnit, Option.map_map, List.any_cons]
      congr 1
      funext t
      cases here : w.lowers d n v with
      | true =>
          -- Nobody else holds the transaction.
          have none : rest.any ((w.lowerUnit v d).lowers d n) = false := by
            rw [List.any_eq_false]
            intro r _ again
            rw [lowers_lowerUnit, Bool.and_eq_true, bne_iff_ne] at again
            obtain ⟨y, unit, live, -⟩ := lowers_iff.mp here
            obtain ⟨z, unit', live', -⟩ := lowers_iff.mp again.1
            exact again.2 (order.single unit' unit live' live)
          simp [none]
      | false =>
          have same : (w.lowerUnit v d).lowers d n = w.lowers d n := by
            funext r
            rw [lowers_lowerUnit]
            by_cases eq : r = v
            · simp [eq, here]
            · simp [eq]
          simp [same]

/-- Lowering units leaves everything alone but units and transactions. -/
theorem lowerUnits_outside (vs : List Nat) (d : Duration) (w : World) :
    let w' := vs.foldl (fun w v => w.lowerUnit v d) w
    w'.now = w.now ∧ w'.epoch = w.epoch ∧ w'.operations = w.operations ∧
      w'.transactions.length = w.transactions.length := by
  induction vs generalizing w with
  | nil => exact ⟨rfl, rfl, rfl, rfl⟩
  | cons v rest ih =>
      have first : (w.lowerUnit v d).now = w.now ∧ (w.lowerUnit v d).epoch = w.epoch ∧
          (w.lowerUnit v d).operations = w.operations ∧
          (w.lowerUnit v d).transactions.length = w.transactions.length := by
        unfold lowerUnit
        split
        next => exact ⟨rfl, rfl, rfl, rfl⟩
        next =>
          split
          next => exact ⟨rfl, rfl, rfl, rfl⟩
          next =>
            dsimp only
            split
            next => simp [call, modifyTransaction, modifyUnit]
            next => exact ⟨rfl, rfl, rfl, rfl⟩
      obtain ⟨now, epoch, operations, length⟩ := ih (w.lowerUnit v d)
      exact ⟨now.trans first.1, epoch.trans first.2.1, operations.trans first.2.2.1,
        length.trans first.2.2.2⟩

/-! ## What is asked and what is granted -/

/-- The parent that an opening names. -/
def parentOf? (w : World) (o : Opening) : Option UnitOfWork := o.parent.bind fun p => w.units[p]?

/-- The options of a new unit: as requested, with a timeout that is no longer than its parent's. -/
def granted (w : World) (o : Opening) : TransactionOptions :=
  match w.parentOf? o with
  | none => o.options
  | some x => o.options.withTimeout (min x.options.timeout o.options.timeout)

/-- What is wrong with an opening: its timeout, or else its level. -/
def openingViolation? (w : World) (o : Opening) : Option Violation :=
  if o.options.timeout < Duration.zero then some (.negativeTimeout o.options.timeout)
  else match w.parentOf? o with
    | none => none
    | some x =>
      if x.options.isolation = o.options.isolation then none
      else some (.isolationMismatch x.options.isolation o.options.isolation)

theorem resolve_of_violation {v : Violation} (wrong : w.openingViolation? o = some v) :
    w.resolve o.parent o.options = .error v := by
  unfold openingViolation? at wrong
  unfold resolve
  split at wrong
  next negative => rw [if_pos negative, Option.some.inj wrong]
  next nonneg =>
    rw [if_neg nonneg]
    cases parent : o.parent with
    | none => simp [parentOf?, parent] at wrong
    | some p =>
        cases unit : w.units[p]? with
        | none => simp [parentOf?, parent, unit] at wrong
        | some x =>
            simp only [parentOf?, parent, unit, Option.bind_some] at wrong
            split at wrong
            next => cases wrong
            next other => simp [unit, nest, other, Option.some.inj wrong]

/-- An opening with nothing wrong gets what is granted, and lowers its ancestors if its parent is
more patient. -/
theorem exists_resolve (right : w.openingViolation? o = none) :
    ∃ vs, w.resolve o.parent o.options = .ok (w.granted o, vs) := by
  unfold openingViolation? at right
  unfold resolve granted
  split at right
  next => cases right
  next nonneg =>
    rw [if_neg nonneg]
    cases parent : o.parent with
    | none => exact ⟨[], by simp [parentOf?, parent]⟩
    | some p =>
        cases unit : w.units[p]? with
        | none => exact ⟨[], by simp [parentOf?, parent, unit]⟩
        | some x =>
            simp only [parentOf?, parent, unit, Option.bind_some] at right ⊢
            split at right
            next same =>
              by_cases lt : o.options.timeout < x.options.timeout
              · refine ⟨p :: x.lineage, ?_⟩
                simp [nest, same, lt, min_eq_right lt.le, TransactionOptions.withTimeout]
              · refine ⟨[], ?_⟩
                simp [nest, same, lt, min_eq_left (le_of_not_gt lt)]
            next => cases right

/-- An opening fails with what is wrong with it, and succeeds if nothing is. -/
theorem openUnit_eq_error {v : Violation} :
    w.openUnit o = .error v ↔ w.openingViolation? o = some v := by
  cases checked : w.openingViolation? o with
  | none =>
      obtain ⟨vs, resolved⟩ := exists_resolve checked
      simp [openUnit, resolved]
  | some v' => simp [openUnit, resolve_of_violation checked]

theorem exists_openUnit_iff :
    (∃ w', w.openUnit o = .ok w') ↔ w.openingViolation? o = none := by
  cases checked : w.openingViolation? o with
  | none =>
      obtain ⟨vs, resolved⟩ := exists_resolve checked
      simp [openUnit, resolved]
  | some v => simp [openUnit_eq_error.mpr checked]

theorem openingViolation?_eq_none : w.openingViolation? o = none ↔
    Duration.zero ≤ o.options.timeout ∧ ∀ x, w.parentOf? o = some x →
      x.options.isolation = o.options.isolation := by
  unfold openingViolation?
  split
  next negative => simp [not_le_of_gt negative]
  next nonneg =>
    rw [and_iff_right (le_of_not_gt nonneg)]
    cases parent : w.parentOf? o <;> simp

theorem openingViolation?_eq_some {v : Violation} : w.openingViolation? o = some v ↔
    o.options.timeout < Duration.zero ∧ v = .negativeTimeout o.options.timeout ∨
      Duration.zero ≤ o.options.timeout ∧ ∃ x, w.parentOf? o = some x ∧
        x.options.isolation ≠ o.options.isolation ∧
        v = .isolationMismatch x.options.isolation o.options.isolation := by
  unfold openingViolation?
  split
  next negative => simp [negative, not_le_of_gt negative, eq_comm]
  next nonneg =>
    rw [not_lt] at nonneg
    cases parent : w.parentOf? o with
    | none => simp [not_lt_of_ge nonneg]
    | some x =>
        by_cases same : x.options.isolation = o.options.isolation
        · simp [not_lt_of_ge nonneg, same]
        · simp [not_lt_of_ge nonneg, nonneg, same, eq_comm (b := v)]

/-! ## All that an opening changes -/

/-- The world after an opening, field by field. -/
structure Constructed (w : World) (o : Opening) (w' : World) : Prop where
  length : w'.units.length = w.units.length + 1
  new : w'.units[w.units.length]? = some (w.openedUnit o (w.granted o))
  /-- Only timeouts of ancestors change. -/
  old : ∀ {k : Nat} {x : UnitOfWork}, w.units[k]? = some x → w'.units[k]? =
    some (if k ∈ w.lineageUnder o.parent then x.lowered o.options.timeout else x)
  transactions : w'.transactions.length = w.transactions.length
  /-- The transaction that the root of the tree holds is lowered with the root. -/
  held : ∀ {p n : Nat} {y : UnitOfWork} {t : Transaction}, o.parent = some p →
    w.liveTransaction? p = some n → w.units[w.rootOf p]? = some y →
    w.transactions[n]? = some t → w'.transactions[n]? =
      some (if o.options.timeout < y.options.timeout then t.lowered o.options.timeout else t)
  free : ∀ {n : Nat} {t : Transaction}, (∀ p, o.parent = some p → w.liveTransaction? p ≠ some n) →
    w.transactions[n]? = some t → w'.transactions[n]? = some t
  clock : w'.now = w.now ∧ w'.epoch = w.epoch
  /-- A manager outside is to be told of the new unit, any other keeps it. -/
  managers : w'.managers = if w.isExternal o.manager then w.managers
    else (w.register o.manager w.units.length).managers
  operations : w'.operations = w.operations ++ [⟨w.units.length, o.thread,
    if w.isExternal o.manager then .welcome else .done .returned⟩]

theorem liveTransaction?_eq_some : w.liveTransaction? u = some n ↔
    ∃ y, w.units[w.rootOf u]? = some y ∧ y.slot = .live n := by
  unfold liveTransaction?
  split
  next y root =>
    split
    next m live => simp [root, live]
    next other =>
      have none : y.slot ≠ .live n := other n
      simp [root, none]
  next none => simp [none]

/-- The root of the tree is among the ancestors of a new unit. -/
theorem Nested.rootOf_mem_lineageUnder (h : w.Nested) (parent : o.parent = some p)
    (root : w.units[w.rootOf p]? = some y) : w.rootOf p ∈ w.lineageUnder o.parent := by
  rcases w.lineageUnder_cases o.parent with ⟨orphan, -⟩ | ⟨q, x, parent', unit, under⟩
  · have none := orphan p parent
    rw [rootOf, none, none] at root
    cases root
  · obtain rfl := Option.some.inj (parent.symm.trans parent')
    rw [under]
    exact (h.rootOf_above unit).1

/-- Of the ancestors of a new unit, only the root of its tree lowers a transaction. -/
theorem Nested.lowers_iff (h : w.Nested) (order : w.Orderly)
    (mem : v ∈ w.lineageUnder o.parent) : w.lowers d n v = true ↔
      ∃ p y, o.parent = some p ∧ v = w.rootOf p ∧ w.liveTransaction? p = some n ∧
        w.units[w.rootOf p]? = some y ∧ d < y.options.timeout := by
  rw [World.lowers_iff]
  rcases w.lineageUnder_cases o.parent with ⟨-, top⟩ | ⟨p, x, parent, unit, under⟩
  · rw [top] at mem
    cases mem
  rw [under] at mem
  constructor
  · rintro ⟨y, held, live, lt⟩
    have root : w.rootOf v = v := rootOf_of_isRoot held (order.held held live).1
    have same : v = w.rootOf p := root.symm.trans ((h.rootOf_above unit).2 v mem)
    rw [same] at held
    exact ⟨p, y, parent, same, liveTransaction?_eq_some.mpr ⟨y, held, live⟩, held, lt⟩
  · rintro ⟨q, y, -, rfl, holds, root, lt⟩
    obtain ⟨z, root', live⟩ := liveTransaction?_eq_some.mp holds
    obtain rfl := Option.some.inj (root.symm.trans root')
    exact ⟨y, root, live, lt⟩

/-- An opening lowers a transaction if one of the ancestors does, whether or not the parent is
lowered itself. -/
theorem Nested.any_lowers (h : w.Nested) {options : TransactionOptions} {vs : List Nat}
    (resolved : w.resolve o.parent o.options = .ok (options, vs)) (n : Nat) :
    vs.any (w.lowers o.options.timeout n) =
      (w.lineageUnder o.parent).any (w.lowers o.options.timeout n) := by
  obtain ⟨-, ⟨top, -, rfl⟩ | ⟨p, x, unit, under, -, -, -, ⟨-, rfl⟩ | ⟨le, rfl⟩⟩⟩ :=
    resolve_cases resolved
  · rw [top]
  · rw [under]
  · -- The parent asks for no more than the new unit, and so do the units above it.
    symm
    rw [under, List.any_nil, List.any_eq_false]
    intro v mem lowers
    obtain ⟨y, above, -, -, shorter⟩ := h.exists_above unit v mem
    obtain ⟨y', held, -, lt⟩ := World.lowers_iff.mp lowers
    obtain rfl := Option.some.inj (above.symm.trans held)
    exact not_le_of_gt lt (shorter.trans le)

/-- An opening that succeeds changes just these fields. -/
theorem Nested.constructed (h : w.Nested) (order : w.Orderly) (opened : w.openUnit o = .ok w') :
    w.Constructed o w' := by
  have done := h.opened opened
  obtain ⟨vs, resolved⟩ := exists_resolve (exists_openUnit_iff.mp ⟨w', opened⟩)
  obtain ⟨-, -, length, managers⟩ := steps_lowerUnits vs o.options.timeout w o.parent
  obtain ⟨now, epoch, operations, count⟩ := lowerUnits_outside vs o.options.timeout w
  have transactions (n : Nat) :
      (vs.foldl (fun w v => w.lowerUnit v o.options.timeout) w).transactions[n]? =
        (w.transactions[n]?).map fun t =>
          if (w.lineageUnder o.parent).any (w.lowers o.options.timeout n) then
            t.lowered o.options.timeout
          else t := by
    rw [transactions_lowerUnits order, h.any_lowers resolved]
  simp only [World.openUnit, resolved, Except.ok.injEq] at opened
  generalize vs.foldl (fun w v => w.lowerUnit v o.options.timeout) w = w₁ at *
  let w₂ : World := { w₁ with units := w₁.units ++ [w.openedUnit o (w.granted o)] }
  have external : w₂.isExternal o.manager = w.isExternal o.manager := by
    rw [isExternal, isExternal, ← managers]
  change (if w₂.isExternal o.manager then w₂.push _ else (w₂.register _ _).push _) = w' at opened
  rw [external] at opened
  have same : w'.transactions = w₁.transactions := by
    rw [← opened]
    split <;> rfl
  refine ⟨done.length, ?_, done.old, by rw [same, count], ?_, ?_, ?_, ?_, ?_⟩
  · rw [← length, ← opened]
    split <;> exact List.getElem?_concat_length ..
  · intro p n y t parent holds root transaction
    rw [same, transactions, transaction, Option.map_some]
    congr 1
    refine if_congr ?_ rfl rfl
    rw [List.any_eq_true]
    constructor
    · rintro ⟨v, mem, lowers⟩
      obtain ⟨q, z, parent', -, -, root', lt⟩ := (h.lowers_iff order mem).mp lowers
      obtain rfl := Option.some.inj (parent.symm.trans parent')
      obtain rfl := Option.some.inj (root.symm.trans root')
      exact lt
    · intro lt
      have mem := h.rootOf_mem_lineageUnder parent root
      exact ⟨_, mem, (h.lowers_iff order mem).mpr ⟨p, y, parent, rfl, holds, root, lt⟩⟩
  · intro n t free transaction
    rw [same, transactions, transaction, Option.map_some]
    congr 1
    refine if_neg ?_
    rw [List.any_eq_true]
    rintro ⟨v, mem, lowers⟩
    obtain ⟨p, y, parent, -, holds, -⟩ := (h.lowers_iff order mem).mp lowers
    exact free p parent holds
  · rw [← opened]
    split <;> exact ⟨now, epoch⟩
  · rw [← opened]
    cases w.isExternal o.manager <;> simp [w₂, push, register, managers]
  · rw [← opened]
    cases w.isExternal o.manager <;> simp [w₂, push, register, operations]

/-- An opening succeeds exactly if its timeout is not negative and its level is that of the parent,
if there is one. It fails for the timeout first, and leaves the world as it was. If it succeeds the
new unit has what is granted to it, and nothing else changes but the timeouts of its ancestors, that
of the transaction which their root holds, and what its manager is told. -/
theorem opening_all_or_nothing (managers : List Manager) (past : List Action) (o : Opening) :
    let w := (initial managers).run past
    ((∃ w', w.openUnit o = .ok w') ↔
      Duration.zero ≤ o.options.timeout ∧ ∀ x, w.parentOf? o = some x →
        x.options.isolation = o.options.isolation) ∧
    (∀ v, w.openUnit o = .error v →
      w.perform (.openUnit o) = w ∧
      (o.options.timeout < Duration.zero ∧ v = .negativeTimeout o.options.timeout ∨
        Duration.zero ≤ o.options.timeout ∧ ∃ x, w.parentOf? o = some x ∧
          x.options.isolation ≠ o.options.isolation ∧
          v = .isolationMismatch x.options.isolation o.options.isolation)) ∧
    ∀ w', w.openUnit o = .ok w' → w.perform (.openUnit o) = w' ∧ w.Constructed o w' := by
  intro w
  refine ⟨?_, ?_, ?_⟩
  · rw [exists_openUnit_iff, openingViolation?_eq_none]
  · intro v failed
    refine ⟨by simp [perform, failed, Except.toOption], ?_⟩
    exact openingViolation?_eq_some.mp (openUnit_eq_error.mp failed)
  · intro w' opened
    refine ⟨by simp [perform, opened, Except.toOption], ?_⟩
    exact (graded_run managers past).nested.constructed (orderly_run managers past) opened

/-- A root at work in its transaction. -/
def commenced : List Action :=
  [.openUnit ⟨"root", "tree", none, 0, 0, .ofLevel .default (.ofSeconds 60)⟩, .commit 0 0]

/-- A child that asks for less lowers the transaction of the root. One that asks for a negative
timeout and for another level is refused for the timeout. -/
theorem opening_all_or_nothing_commenced :
    let w := (initial [.permissive]).run commenced
    let hasty : Opening := ⟨"hasty", "", some 0, 0, 0, .ofLevel .default (.ofSeconds 10)⟩
    let wrong : Opening := ⟨"wrong", "", some 0, 0, 0, .ofLevel .readCommitted (.ofSeconds (-1))⟩
    (∃ w' t, w.openUnit hasty = .ok w' ∧ w.transactions[0]? = some t ∧
      w'.transactions[0]? = some (t.lowered (.ofSeconds 10)) ∧
      w'.units[1]? = some (w.openedUnit hasty hasty.options)) ∧
    w.openUnit wrong = .error (.negativeTimeout (.ofSeconds (-1))) ∧
      w.perform (.openUnit wrong) = w := by
  intro w hasty wrong
  obtain ⟨succeeds, -, changes⟩ := opening_all_or_nothing [.permissive] commenced hasty
  obtain ⟨-, refuses, -⟩ := opening_all_or_nothing [.permissive] commenced wrong
  obtain ⟨w', opened⟩ := succeeds.mpr ⟨by decide, by rintro x ⟨⟩; rfl⟩
  have constructed : w.Constructed hasty w' := (changes w' opened).2
  obtain ⟨t, transaction⟩ : ∃ t, w.transactions[0]? = some t := ⟨_, rfl⟩
  have failed : w.openUnit wrong = .error (.negativeTimeout (.ofSeconds (-1))) := rfl
  refine ⟨⟨w', t, opened, transaction, ?_, constructed.new⟩, failed, (refuses _ failed).1⟩
  exact constructed.held rfl rfl rfl transaction

end World

end NestedWork
