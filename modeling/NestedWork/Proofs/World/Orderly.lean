import NestedWork.Proofs.World.Frame

/-!
# Units and the commits that run on them

At most one commit runs on a unit, and its stage is the one that the unit shows. Every step keeps
this, whoever takes it.

## Implementation notes

A unit stands in the middle of its operations: the mark that a commit is running keeps a second
one out, and the status tells how far the running one has come. Transactions are only counted
here.
-/

namespace NestedWork.World

variable {w w' : World} {l : Label} {c u thread n : Nat} {x : UnitOfWork} {s s' : Stage}
  {f : UnitOfWork → UnitOfWork} {actions : List Transaction.Action}

/-- The units, their operations and their transactions agree. -/
structure Orderly (w : World) : Prop where
  seated : w.Seated
  /-- The last ancestor of a unit is a root. -/
  rooted : ∀ {u : Nat} {x : UnitOfWork}, w.units[u]? = some x →
    ∃ y, w.units[x.lineage.getLastD u]? = some y ∧ y.isRoot = true
  /-- A unit shows the stage of the commit that runs on it. -/
  shown : ∀ {c u thread : Nat} {s : Stage} {x : UnitOfWork},
    w.operations[c]? = some ⟨u, thread, s⟩ → w.units[u]? = some x → s.isRunning = true →
      x.committing = true ∧ s.unitStatus? = some x.status
  alone : ∀ {c d u thread thread' : Nat} {s s' : Stage},
    w.operations[c]? = some ⟨u, thread, s⟩ → w.operations[d]? = some ⟨u, thread', s'⟩ →
      s.isRunning = true → s'.isRunning = true → c = d
  /-- A commit works in a transaction that there is, with a handle of the owner on a root only. -/
  entered : ∀ {c u thread : Nat} {s : Stage} {x : UnitOfWork} {scope : Scope},
    w.operations[c]? = some ⟨u, thread, s⟩ → w.units[u]? = some x → s.scope? = some scope →
      scope.owner = x.isRoot ∧ scope.transaction < w.transactions.length
  /-- Only roots hold transactions, each its own. -/
  held : ∀ {u n : Nat} {x : UnitOfWork}, w.units[u]? = some x → x.slot = .live n →
    x.isRoot = true ∧ n < w.transactions.length
  single : ∀ {u v n : Nat} {x y : UnitOfWork}, w.units[u]? = some x → w.units[v]? = some y →
    x.slot = .live n → y.slot = .live n → u = v
  /-- A root that has not come to hold a transaction has not begun to work. -/
  unused : ∀ {u : Nat} {x : UnitOfWork}, w.units[u]? = some x → x.isRoot = true →
    x.slot = .pending → x.status = .inDoubt

theorem orderly_initial (managers : List Manager) : (initial managers).Orderly := by
  constructor <;> intros <;> simp_all [initial, Seated]

namespace Orderly

theorem still (h : w.Orderly) (same : w.Still w') : w'.Orderly where
  seated := by
    intro c u thread s running busy
    obtain ⟨x, unit⟩ := h.seated (same.operations ▸ running) busy
    obtain ⟨x', unit', -⟩ := same.forth unit
    exact ⟨x', unit'⟩
  rooted := by
    intro u x' unit
    obtain ⟨x, before, alike⟩ := same.back unit
    obtain ⟨y, root, top⟩ := h.rooted before
    obtain ⟨y', root', alike'⟩ := same.forth root
    exact ⟨y', alike.lineage ▸ root', alike'.isRoot_eq.trans top⟩
  shown := by
    intro c u thread s x' running unit busy
    obtain ⟨x, before, alike⟩ := same.back unit
    rw [alike.committing, alike.status]
    exact h.shown (same.operations ▸ running) before busy
  alone := by
    intro c d u thread thread' s s' first second
    exact h.alone (same.operations ▸ first) (same.operations ▸ second)
  entered := by
    intro c u thread s x' scope running unit within
    obtain ⟨x, before, alike⟩ := same.back unit
    obtain ⟨owner, lt⟩ := h.entered (same.operations ▸ running) before within
    exact ⟨owner.trans alike.isRoot_eq.symm, Nat.lt_of_lt_of_le lt same.transactions⟩
  held := by
    intro u n x' unit live
    obtain ⟨x, before, alike⟩ := same.back unit
    obtain ⟨root, lt⟩ := h.held before (alike.slot ▸ live)
    exact ⟨alike.isRoot_eq.trans root, Nat.lt_of_lt_of_le lt same.transactions⟩
  single := by
    intro u v n x' y' first second live live'
    obtain ⟨x, before, alike⟩ := same.back first
    obtain ⟨y, before', alike'⟩ := same.back second
    exact h.single before before' (alike.slot ▸ live) (alike'.slot ▸ live')
  unused := by
    intro u x' unit root pending
    obtain ⟨x, before, alike⟩ := same.back unit
    exact alike.status.trans
      (h.unused before (alike.isRoot_eq ▸ root) (alike.slot ▸ pending))

/-- An operation that is begun or moved, and is no commit under way, keeps the order. -/
theorem aside (h : w.Orderly) (units : w'.units = w.units)
    (transactions : w'.transactions = w.transactions) {o : Operation}
    (operations : ∀ {d : Nat} {o' : Operation}, w'.operations[d]? = some o' →
      w.operations[d]? = some o' ∨ o' = o)
    (idle : o.stage.isRunning = false)
    (seat : o.stage.isAside = false → ∃ x, w.units[o.unit]? = some x) : w'.Orderly where
  seated := by
    intro d v thread s running busy
    rw [units]
    rcases operations running with old | new
    · exact h.seated old busy
    · subst new
      exact seat busy
  rooted := by
    rw [units]
    exact h.rooted
  shown := by
    intro d v thread s x running unit busy
    rw [units] at unit
    rcases operations running with old | new
    · exact h.shown old unit busy
    · subst new
      simp [idle] at busy
  alone := by
    intro d e v thread thread' s s' first second busy busy'
    rcases operations first with old | new
    · rcases operations second with old' | new'
      · exact h.alone old old' busy busy'
      · subst new'
        simp [idle] at busy'
    · subst new
      simp [idle] at busy
  entered := by
    intro d v thread s x scope running unit within
    rw [units] at unit
    rw [transactions]
    rcases operations running with old | new
    · exact h.entered old unit within
    · subst new
      simp [isRunning_of_scope within] at idle
  held := by
    rw [units, transactions]
    exact h.held
  single := by
    rw [units]
    exact h.single
  unused := by
    rw [units]
    exact h.unused

end Orderly

theorem free_of_commitViolation (allowed : commitViolation? x = none) :
    x.committing = false ∧ x.status = .inDoubt := by
  unfold commitViolation? at allowed
  cases disposed : x.disposed <;> cases committing : x.committing <;> cases status : x.status <;>
    simp [disposed, committing, status] at allowed ⊢

namespace Orderly

/-- The root of a unit's tree is a root. -/
theorem isRoot_rootOf {y : UnitOfWork} (h : w.Orderly) (unit : w.units[u]? = some x)
    (root : w.units[w.rootOf u]? = some y) : y.isRoot = true := by
  obtain ⟨y', root', top⟩ := h.rooted unit
  rw [rootOf_eq unit] at root
  obtain rfl := Option.some.inj (root.symm.trans root')
  exact top

/-- A change of one unit and of one operation on it keeps the order, if the unit shows the
operation afterwards and no other commit runs on it. -/
theorem update {x' : UnitOfWork} (h : w.Orderly) (up : Update w w' c u thread x x' s)
    (alone : (∀ {d thread' : Nat} {s' : Stage}, d ≠ c →
        w.operations[d]? = some ⟨u, thread', s'⟩ → s'.isRunning = false) ∨
      s.isRunning = false ∧ x'.status = x.status ∧ x'.committing = x.committing)
    (shown : s.isRunning = true → x'.committing = true ∧ s.unitStatus? = some x'.status)
    (entered : ∀ scope, s.scope? = some scope →
      scope.owner = x.isRoot ∧ scope.transaction < w.transactions.length)
    (unused : x'.isRoot = true → x'.slot = .pending → x'.status = .inDoubt) : w'.Orderly where
  seated := by
    intro d v thread' s' running busy
    rcases up.operation running with ⟨-, old⟩ | ⟨-, new⟩
    · obtain ⟨y, unit⟩ := h.seated old busy
      obtain ⟨y', unit', -⟩ := up.exists_unit unit
      exact ⟨y', unit'⟩
    · cases new
      exact ⟨x', up.after⟩
  rooted := by
    intro v y unit
    obtain ⟨y', before, lineage, -, -⟩ := up.unit unit
    obtain ⟨z, root, top⟩ := h.rooted before
    obtain ⟨z', root', lineage'⟩ := up.exists_unit root
    exact ⟨z', lineage ▸ root', by simpa [UnitOfWork.isRoot, lineage'] using top⟩
  shown := by
    intro d v thread' s' y running unit busy
    obtain ⟨y', before, -, -, same⟩ := up.unit unit
    rcases up.operation running with ⟨ne, old⟩ | ⟨-, new⟩
    · have then' := h.shown old before busy
      rcases same with ⟨-, rfl⟩ | ⟨rfl, rfl, rfl⟩
      · exact then'
      · rcases alone with quiet | ⟨-, status, committing⟩
        · simp [quiet ne old] at busy
        · rwa [status, committing]
    · cases new
      obtain rfl := Option.some.inj (up.after.symm.trans unit)
      exact shown busy
  alone := by
    intro d e v thread' thread'' s' s'' first second busy busy'
    rcases up.operation first with ⟨ne, old⟩ | ⟨rfl, new⟩ <;>
      rcases up.operation second with ⟨ne', old'⟩ | ⟨rfl, new'⟩
    · exact h.alone old old' busy busy'
    · cases new'
      rcases alone with quiet | ⟨idle, -⟩
      · simp [quiet ne old] at busy
      · simp [idle] at busy'
    · cases new
      rcases alone with quiet | ⟨idle, -⟩
      · simp [quiet ne' old'] at busy'
      · simp [idle] at busy
    · rfl
  entered := by
    intro d v thread' s' y scope running unit within
    obtain ⟨y', before, lineage, -, same⟩ := up.unit unit
    have root : y.isRoot = y'.isRoot := by simp [UnitOfWork.isRoot, lineage]
    rw [up.transactions, root]
    rcases up.operation running with ⟨-, old⟩ | ⟨-, new⟩
    · exact h.entered old before within
    · cases new
      obtain rfl := Option.some.inj (up.before.symm.trans before)
      exact entered scope within
  held := by
    intro v n y unit live
    obtain ⟨y', before, lineage, slot, -⟩ := up.unit unit
    rcases slot with slot | slot
    · obtain ⟨root, lt⟩ := h.held before (slot ▸ live)
      exact ⟨by simpa [UnitOfWork.isRoot, lineage] using root, up.transactions ▸ lt⟩
    · simp [slot] at live
  single := by
    intro v v' n y z first second live live'
    obtain ⟨y', before, -, slot, -⟩ := up.unit first
    obtain ⟨z', before', -, slot', -⟩ := up.unit second
    rcases slot with slot | slot
    · rcases slot' with slot' | slot'
      · exact h.single before before' (slot ▸ live) (slot' ▸ live')
      · simp [slot'] at live'
    · simp [slot] at live
  unused := by
    intro v y unit root pending
    obtain ⟨y', before, -, -, same⟩ := up.unit unit
    rcases same with ⟨-, rfl⟩ | ⟨rfl, rfl, rfl⟩
    · exact h.unused before root pending
    · exact unused root pending

/-- A commit that is let in is the only one on its unit. -/
theorem accept (h : w.Orderly) (unit : w.units[u]? = some x)
    (allowed : commitViolation? x = none) (thread : Nat) :
    ((w.modifyUnit u fun x => { x with committing := true }).push
      ⟨u, thread, .admission⟩).Orderly := by
  obtain ⟨free, inDoubt⟩ := free_of_commitViolation allowed
  apply h.update (update_accept unit thread)
  · left
    intro d thread' s' _ running
    cases busy : s'.isRunning with
    | false => rfl
    | true =>
        have marked := (h.shown running unit busy).1
        simp [free] at marked
  · intro _
    exact ⟨rfl, congrArg some inDoubt.symm⟩
  · intro scope within
    cases within
  · intro _ _
    exact inDoubt

/-- A turn of an operation keeps the order. -/
theorem turn (h : w.Orderly) (running : w.operations[c]? = some ⟨u, thread, s⟩)
    (unit : w.units[u]? = some x) (turns : w.Turns c u x thread l s f n actions s') :
    (w.evolve c u f n actions s').Orderly := by
  have before : s.isRunning = true → x.committing = true ∧ s.unitStatus? = some x.status :=
    h.shown running unit
  apply h.update (update_evolve running unit turns)
  · cases busy : s.isRunning with
    | false => exact .inr (turns.quiet busy)
    | true =>
        left
        intro d thread' s'' ne other
        cases busy' : s''.isRunning with
        | false => rfl
        | true => exact absurd (h.alone other running busy' busy) ne
  · intro busy
    exact (turns.shown before busy).2
  · intro scope within
    rcases turns.scope within with same | ⟨-, owner, y, root, live⟩
    · exact h.entered running unit same
    · exact ⟨owner, (h.held root live).2⟩
  · intro root pending
    have same : x.isRoot = true := by simpa [UnitOfWork.isRoot, turns.kept.2.1] using root
    have slot : x.slot = .pending := by
      rcases turns.kept.2.2 with kept | released
      · exact kept ▸ pending
      · simp [released] at pending
    have inDoubt := h.unused unit same slot
    cases busy : s.isRunning with
    | false => exact (turns.quiet busy).2.1.trans inDoubt
    | true =>
        have shown := (before busy).2
        rw [inDoubt] at shown
        cases turns with
        | refuse | orphan => exact inDoubt
        | enter root' live =>
            rw [rootOf_of_isRoot unit same] at root'
            obtain rfl := Option.some.inj (unit.symm.trans root')
            simp [slot] at live
        | finish judges | yield judges => cases judges <;> cases shown
        | @yielded result => cases result <;> cases shown
        | leave leaves => cases leaves <;> cases busy
        | _ => cases shown

/-- The first commit that is let through opens the transaction of its tree. -/
theorem found {y : UnitOfWork} (h : w.Orderly) (unit : w.units[u]? = some x)
    (root : w.units[w.rootOf u]? = some y) : (w.foundAt (w.rootOf u) y).Orderly := by
  have top := h.isRoot_rootOf unit root
  generalize w.rootOf u = r at root
  have length := w.length_foundAt r y
  constructor
  · intro c v thread s running busy
    obtain ⟨z', before⟩ := h.seated (s := s) running busy
    obtain ⟨z, after, -, -⟩ := forth_foundAt r y before
    exact ⟨z, after⟩
  · intro v z after
    obtain ⟨z', before, alike, -⟩ := back_foundAt after
    obtain ⟨t', root', top'⟩ := h.rooted before
    obtain ⟨t, after', -, lineage, -⟩ := forth_foundAt r y root'
    exact ⟨t, alike.1 ▸ after', by simpa [UnitOfWork.isRoot, lineage] using top'⟩
  · intro c v thread s z running after busy
    obtain ⟨z', before, ⟨-, status, committing⟩, -⟩ := back_foundAt after
    rw [status, committing]
    exact h.shown (s := s) running before busy
  · exact h.alone
  · intro c v thread s z scope running after within
    obtain ⟨z', before, ⟨lineage, -, -⟩, -⟩ := back_foundAt after
    obtain ⟨owner, lt⟩ := h.entered (s := s) running before within
    exact ⟨by simpa [UnitOfWork.isRoot, lineage] using owner, by omega⟩
  · intro v n z after live
    obtain ⟨z', before, ⟨lineage, -, -⟩, slot⟩ := back_foundAt after
    have same : z.isRoot = z'.isRoot := by simp [UnitOfWork.isRoot, lineage]
    rcases slot with ⟨rfl, slot⟩ | ⟨-, slot⟩
    · obtain rfl := Option.some.inj (root.symm.trans before)
      obtain rfl := Slot.live.inj (slot.symm.trans live)
      exact ⟨same.trans top, by omega⟩
    · obtain ⟨isRoot, lt⟩ := h.held before (slot ▸ live)
      exact ⟨same.trans isRoot, by omega⟩
  · intro v v' n z z' after after' live live'
    obtain ⟨t, before, -, slot⟩ := back_foundAt after
    obtain ⟨t', before', -, slot'⟩ := back_foundAt after'
    rcases slot with ⟨rfl, slot⟩ | ⟨-, slot⟩ <;> rcases slot' with ⟨rfl, slot'⟩ | ⟨-, slot'⟩
    · rfl
    · have lt := (h.held before' (slot' ▸ live')).2
      obtain rfl := Slot.live.inj (slot.symm.trans live)
      omega
    · have lt := (h.held before (slot ▸ live)).2
      obtain rfl := Slot.live.inj (slot'.symm.trans live')
      omega
    · exact h.single before before' (slot ▸ live) (slot' ▸ live')
  · intro v z after isRoot pending'
    obtain ⟨z', before, ⟨lineage, status, -⟩, slot⟩ := back_foundAt after
    rcases slot with ⟨-, slot⟩ | ⟨-, slot⟩
    · cases slot.symm.trans pending'
    · have same : z.isRoot = z'.isRoot := by simp [UnitOfWork.isRoot, lineage]
      exact status.trans (h.unused before (same ▸ isRoot) (slot ▸ pending'))

/-- Opening a unit keeps the order. -/
theorem openUnit (h : w.Orderly) (o : Opening) (options : TransactionOptions) :
    Orderly { w with units := w.units ++ [w.openedUnit o options] } := by
  constructor
  · intro c v thread s running busy
    obtain ⟨z, before⟩ := h.seated (s := s) running busy
    exact ⟨z, forth_openedUnit o options before⟩
  · intro v z after
    rcases back_openedUnit after with before | ⟨rfl, rfl⟩
    · obtain ⟨y, root, top⟩ := h.rooted before
      exact ⟨y, forth_openedUnit o options root, top⟩
    · have alone (none : w.lineageUnder o.parent = []) :
          ∃ y, (w.units ++ [w.openedUnit o options])[(w.openedUnit o options).lineage.getLastD
            w.units.length]? = some y ∧ y.isRoot = true := by
        refine ⟨w.openedUnit o options, ?_, ?_⟩
        · rw [openedUnit, none]
          exact List.getElem?_concat_length ..
        · simp [openedUnit, UnitOfWork.isRoot, none]
      unfold lineageUnder at alone
      cases parent : o.parent with
      | none => exact alone (by simp [parent])
      | some p =>
          cases unit : w.units[p]? with
          | none => exact alone (by simp [parent, unit])
          | some x =>
              obtain ⟨y, root, top⟩ := h.rooted unit
              refine ⟨y, ?_, top⟩
              have lineage : (w.openedUnit o options).lineage = p :: x.lineage := by
                simp [openedUnit, lineageUnder, parent, unit]
              rw [lineage, List.getLastD_cons]
              exact forth_openedUnit o options root
  · intro c v thread s z running after busy
    rcases back_openedUnit after with before | ⟨rfl, rfl⟩
    · exact h.shown (s := s) running before busy
    · obtain ⟨z, before⟩ := h.seated (s := s) running (isAside_of_isRunning busy)
      simp at before
  · exact h.alone
  · intro c v thread s z scope running after within
    rcases back_openedUnit after with before | ⟨rfl, rfl⟩
    · exact h.entered (s := s) running before within
    · obtain ⟨z, before⟩ :=
        h.seated (s := s) running (isAside_of_isRunning (isRunning_of_scope within))
      simp at before
  · intro v n z after live
    rcases back_openedUnit after with before | ⟨rfl, rfl⟩
    · exact h.held before live
    · cases live
  · intro v v' n z z' after after' live live'
    rcases back_openedUnit after with before | ⟨rfl, rfl⟩
    · rcases back_openedUnit after' with before' | ⟨rfl, rfl⟩
      · exact h.single before before' live live'
      · cases live'
    · cases live
  · intro v z after isRoot pending
    rcases back_openedUnit after with before | ⟨rfl, rfl⟩
    · exact h.unused before isRoot pending
    · rfl

/-- Every step keeps the order. -/
theorem step (h : w.Orderly) (s : w.Step l w') : w'.Orderly := by
  cases s with
  | tick | register | forget => exact h.still (.of_units rfl rfl (Nat.le_refl _))
  | openTransaction => exact h.still (.of_units rfl rfl (by simp [openTransaction]))
  | transact | commit => exact h.still (.of_units rfl rfl (by simp))
  | lower => exact h.still (w.still_lower _ _)
  | lowerLive => exact h.still (w.still_lowerLive _ _ _ _)
  | openUnit o options => exact h.openUnit o options
  | refuse unit violates thread =>
      exact h.aside rfl rfl (fun running => (operations_push running).imp_right (·.2)) rfl
        (by rintro ⟨⟩)
  | accept unit allowed thread => exact h.accept unit allowed thread
  | release unit kept thread dropping =>
      exact h.aside rfl rfl (fun running => (operations_push running).imp_right (·.2)) rfl
        fun _ => ⟨_, unit⟩
  | push aside u thread =>
      refine h.aside rfl rfl (fun running => (operations_push running).imp_right (·.2)) ?_ ?_
      · rcases aside with rfl | rfl | rfl <;> rfl
      · rcases aside with rfl | rfl | rfl <;> rintro ⟨⟩
  | found asks unit root => exact h.found unit root
  | turn running unit turns => exact h.turn running unit turns
  | answered running waits =>
      exact h.aside rfl rfl (fun after => (operations_moveTo running after).imp (·.2) (·.2)) rfl
        (by rintro ⟨⟩)

end Orderly

end NestedWork.World
