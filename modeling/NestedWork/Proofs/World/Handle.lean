import NestedWork.Proofs.World.Disposal
import NestedWork.Proofs.World.Stem

/-!
# The handles on the transaction of a root

A root holds one handle on the transaction of its tree in its slot, and its running commit holds
another while it works in the transaction. Whoever gives up the last of them ends the transaction.

## Implementation notes

The count of a root is compared with who holds a handle, not with what has been done to it. A
transaction without a handle is over, and a step that takes the last one makes it so.
-/

namespace NestedWork

/-- The handles that a slot stands for. -/
def Slot.handles : Slot → Nat
  | live _ => 1
  | pending | released => 0

/-- A commit works in a transaction. -/
def Stage.isEngaged (s : Stage) : Bool := s.scope?.isSome

theorem Stage.isRunning_of_isEngaged {s : Stage} (engaged : s.isEngaged = true) :
    s.isRunning = true := by
  obtain ⟨scope, within⟩ := Option.isSome_iff_exists.mp engaged
  exact World.isRunning_of_scope within

/-- A transaction that is committed or aborted stays so. -/
theorem Transaction.Sound.terminal_runAt {t : Transaction} {now : Instant} (h : t.Sound)
    (ended : t.status = .committed ∨ t.status = .aborted) (actions : List Action) :
    (t.runAt now actions).status = .committed ∨ (t.runAt now actions).status = .aborted :=
  ended.imp (h.committed_runAt · actions) (run_aborted · _)

namespace World

variable {w w' : World} {l : Label} {c d u r thread n : Nat} {x x' : UnitOfWork} {s s' : Stage}
  {f : UnitOfWork → UnitOfWork} {actions : List Transaction.Action}

/-! ## The count -/

/-- The handles that a root counts are that of its slot and that of the commit that works in the
transaction. -/
structure Tallied (w : World) (r : Nat) (x : UnitOfWork) : Prop where
  apart : (∀ c, w.isAt r c Stage.isEngaged = false) → x.handles = x.slot.handles
  engaged : ∀ {c : Nat}, w.isAt r c Stage.isEngaged = true → x.handles = x.slot.handles + 1

/-- A root that holds a transaction in its slot has a handle on it. -/
theorem Tallied.pos_of_live (h : w.Tallied r x) (live : x.slot = .live n) : 0 < x.handles := by
  by_cases none : ∀ c, w.isAt r c Stage.isEngaged = false
  · rw [h.apart none, live]
    exact Nat.one_pos
  · obtain ⟨c, engaged⟩ := not_forall.mp none
    rw [h.engaged (Bool.not_eq_false _ ▸ engaged)]
    exact Nat.succ_pos _

/-- What a turn of an operation on a root does to its handles. -/
inductive Shifts (x x' : UnitOfWork) (s s' : Stage) : Prop
  | aside (engaged : s'.isEngaged = s.isEngaged) (handles : x'.handles = x.handles)
      (slot : x'.slot.handles = x.slot.handles)
  | enter (running : s.isRunning = true) (before : s.isEngaged = false)
      (after : s'.isEngaged = true) (handles : x'.handles = x.handles + 1)
      (slot : x'.slot = x.slot)
  | yield (before : s.isEngaged = true) (after : s'.isEngaged = false)
      (handles : x'.handles = x.handles - 1) (slot : x'.slot = x.slot)
  | part (engaged : s'.isEngaged = s.isEngaged) (handles : x'.handles = x.handles - 1)
      (slot : x.slot.handles = 1) (slot' : x'.slot.handles = 0)

theorem Judges.handles_eq {scope : Scope} {result : Response Unit}
    (judges : w.Judges u s scope result f) (owner : scope.owner = true) (x : UnitOfWork) :
    ((f x).yield scope).handles = x.handles - 1 := by
  cases judges <;> simp [UnitOfWork.yield, owner]

theorem Turns.shifts (turns : w.Turns c u x thread l s f n actions s') (root : x.isRoot = true)
    (owner : ∀ scope, s.scope? = some scope → scope.owner = true) : Shifts x (f x) s s' := by
  cases turns with
  | enter => exact .enter rfl rfl rfl (by simp [UnitOfWork.enter, root]) rfl
  | succeed joined => cases joined.symm.trans (owner _ rfl)
  | finish judges | yield judges =>
      have within := judges.running.2
      have kept := judges.kept x
      have handles := judges.handles_eq (owner _ within) x
      exact .yield (by simp [Stage.isEngaged, within]) rfl handles (by simp [kept])
  | surrender root live => exact .part rfl rfl (by rw [live]; rfl) rfl
  | leave leaves =>
      have after : (if w.isExternal x.manager then Stage.farewell
          else .done .returned).isEngaged = false := by
        split <;> rfl
      cases leaves with
      | nested inside => cases inside.symm.trans root
      | keep root live => exact .part after rfl (by rw [live]; rfl) rfl
      | empty root none =>
          refine .aside after rfl ?_
          cases slot : x.slot with
          | live n => exact absurd slot (none n)
          | pending | released => rfl
      | surrendered => exact .aside after rfl rfl
  | _ => exact .aside rfl rfl rfl

/-- At most one commit of a unit runs, so no other one works in the transaction. -/
theorem Orderly.isEngaged_of_ne (order : w.Orderly)
    (running : w.operations[c]? = some ⟨u, thread, s⟩) (busy : s.isRunning = true) (ne : d ≠ c) :
    w.isAt u d Stage.isEngaged = false := by
  refine Bool.eq_false_iff.mpr fun engaged => ?_
  obtain ⟨thread', s'', other, engaged⟩ := isAt_iff.mp engaged
  exact ne (order.alone other running (Stage.isRunning_of_isEngaged engaged) busy)

/-- A turn of an operation on a root keeps the count. -/
theorem Tallied.turn (h : w.Tallied u x) (order : w.Orderly)
    (running : w.operations[c]? = some ⟨u, thread, s⟩) (unit : w.units[u]? = some x)
    (turns : w.Turns c u x thread l s f n actions s') (root : x.isRoot = true) :
    (w.evolve c u f n actions s').Tallied u (f x) := by
  have took := took_evolve running unit turns
  have owner (scope : Scope) (within : s.scope? = some scope) : scope.owner = true :=
    (order.entered running unit within).1.trans root
  have same (engaged : s'.isEngaged = s.isEngaged) (d : Nat) :
      (w.evolve c u f n actions s').isAt u d Stage.isEngaged = w.isAt u d Stage.isEngaged := by
    by_cases eq : d = c
    · rw [eq, took.here', took.here, engaged]
    · exact took.other eq _
  cases turns.shifts root owner with
  | aside engaged handles slot =>
      constructor
      · intro none
        rw [handles, slot, h.apart fun d => same engaged d ▸ none d]
      · intro d there
        rw [handles, slot, h.engaged (same engaged d ▸ there)]
  | enter busy before after handles slot =>
      have idle : x.handles = x.slot.handles := by
        refine h.apart fun d => ?_
        by_cases eq : d = c
        · rw [eq, took.here, before]
        · exact order.isEngaged_of_ne running busy eq
      constructor
      · intro none
        have here := none c
        rw [took.here', after] at here
        cases here
      · intro d _
        rw [handles, slot, idle]
  | yield before after handles slot =>
      have busy := Stage.isRunning_of_isEngaged before
      have count := h.engaged ((took.here Stage.isEngaged).trans before)
      constructor
      · intro _
        rw [handles, slot, count, Nat.add_sub_cancel]
      · intro d there
        by_cases eq : d = c
        · rw [eq, took.here', after] at there
          cases there
        · rw [took.other eq, order.isEngaged_of_ne running busy eq] at there
          cases there
  | part engaged handles slot slot' =>
      constructor
      · intro none
        rw [handles, slot', h.apart fun d => same engaged d ▸ none d, slot]
      · intro d there
        rw [handles, slot', h.engaged (same engaged d ▸ there), slot]

/-- Every root counts its handles right. -/
def Tallies (w : World) : Prop :=
  ∀ {r : Nat} {x : UnitOfWork}, w.units[r]? = some x → x.isRoot = true → w.Tallied r x

theorem Stage.late_of_isEngaged {s : Stage} (engaged : s.isEngaged = true) :
    s.isOpening = false ∧ s.isAside = false := by
  cases s <;> first | exact ⟨rfl, rfl⟩ | cases engaged

theorem Tallies.step (h : w.Tallies) (order : w.Orderly) (step : w.Step l w') : w'.Tallies := by
  intro r x' unit' root
  rcases takesTurn_or_bypasses w w' l r with ⟨x, y, unit, turn⟩ | bypasses
  · obtain ⟨running, turns, rfl⟩ := turn
    obtain rfl := Option.some.inj (unit'.symm.trans (units_evolve unit))
    have before : x.isRoot = true := by simpa [UnitOfWork.isRoot, turns.kept.2.1] using root
    exact (h unit before).turn order running unit turns before
  · have same := step.isAt_eq (fun _ => Stage.late_of_isEngaged) bypasses
    cases unit : w.units[r]? with
    | none =>
        obtain ⟨o, options, rfl⟩ := step.opened unit unit'
        refine ⟨fun _ => rfl, fun {c} engaged => ?_⟩
        rw [same] at engaged
        obtain ⟨thread, s, running, engaged⟩ := isAt_iff.mp engaged
        obtain ⟨x, there⟩ := order.seated running (Stage.late_of_isEngaged engaged).2
        cases unit.symm.trans there
    | some x =>
        obtain ⟨y, after, -, lineage, -⟩ := step.forth unit
        obtain rfl := Option.some.inj (unit'.symm.trans after)
        have before : x.isRoot = true := by simpa [UnitOfWork.isRoot, lineage] using root
        have tallied := h unit before
        cases step.became unit unit' with
        | kept =>
            exact ⟨fun none => tallied.apart fun c => same c ▸ none c,
              fun engaged => tallied.engaged (same _ ▸ engaged)⟩
        | founded _ pending =>
            have nothing : x.slot.handles = 0 := by rw [pending]; rfl
            constructor
            · intro none
              have count := tallied.apart fun c => same c ▸ none c
              rw [nothing] at count
              exact congrArg (· + 1) count
            · intro c engaged
              have count := tallied.engaged (same c ▸ engaged)
              rw [nothing] at count
              exact congrArg (· + 1) count
        | turned turn => exact absurd turn (bypasses unit)

theorem tallies_run (managers : List Manager) (past : List Action) :
    ((initial managers).run past).Tallies :=
  @run_induction Tallies managers [] past (fun unit => nomatch unit) fun order h step =>
    h.step order step

/-! ## The last handle -/

/-- A root has a handle on the transaction of its tree, or that is over. -/
def Guarded (w : World) (r n : Nat) : Prop :=
  (∃ x, w.units[r]? = some x ∧ 0 < x.handles) ∨
    ∃ t, w.transactions[n]? = some t ∧ (t.status = .committed ∨ t.status = .aborted)

/-- A turn that takes the last handle of a root ends the transaction. -/
theorem Turns.aborts_of_last (turns : w.Turns c u x thread l s f n actions s')
    (owner : ∀ scope, s.scope? = some scope → scope.owner = true) (holds : 0 < x.handles)
    (none : (f x).handles = 0) :
    (∃ rest, actions = .begin (.abort .ownerReleased) :: rest) ∧
      (x.slot = .live n ∨ ∃ scope, s.scope? = some scope ∧ scope.transaction = n) := by
  have same (kept : (f x).handles = x.handles) : False := by omega
  cases turns with
  | enter =>
      revert none
      simp only [UnitOfWork.enter]
      split <;> omega
  | finish judges light => exact absurd none (light (owner _ judges.running.2))
  | yield judges => exact ⟨⟨_, rfl⟩, .inr ⟨_, judges.running.2, rfl⟩⟩
  | surrender _ live => exact ⟨⟨_, rfl⟩, .inl live⟩
  | leave leaves =>
      cases leaves with
      | keep _ _ shared =>
          have none : x.handles - 1 = 0 := none
          omega
      | _ => exact (same rfl).elim
  | _ => exact (same rfl).elim

/-- Every step leaves the root with a handle, or ends the transaction. -/
theorem Guarded.step (h : w.Guarded r n) (stem : w.Stem r n) (order : w.Orderly) (lived : w.Lived)
    (step : w.Step l w') : w'.Guarded r n := by
  rcases h with ⟨x, unit, holds⟩ | ⟨t, transaction, ended⟩
  · obtain ⟨x', unit', -⟩ := step.forth unit
    cases none : x'.handles with
    | succ k => exact .inl ⟨x', unit', by omega⟩
    | zero =>
        cases step.became unit unit' with
        | kept => exact absurd none (Nat.ne_of_gt holds)
        | founded => cases none
        | turned turn =>
            obtain ⟨x₀, unit₀, root, -⟩ := stem.holds.root
            obtain rfl := Option.some.inj (unit.symm.trans unit₀)
            obtain ⟨running, turns, rfl⟩ := turn
            have owner (scope : Scope) (within : _ = some scope) : scope.owner = true :=
              (order.entered running unit within).1.trans root
            obtain ⟨⟨rest, rfl⟩, here⟩ := turns.aborts_of_last owner holds none
            obtain rfl : _ = n := by
              rcases here with live | ⟨scope, within, rfl⟩
              · exact stem.holds.eq_of_live unit live
              · exact stem.scopes running within (rootOf_of_isRoot unit root)
            obtain ⟨t, transaction⟩ : ∃ t, w.transactions[_]? = some t :=
              ⟨_, List.getElem?_eq_getElem stem.lt⟩
            have sound := Lived.sound lived transaction
            refine .inr ⟨_, transactions_evolve transaction, ?_⟩
            by_cases committed : t.status = .committed
            · exact .inl (sound.committed_runAt committed _)
            · exact .inr (sound.aborted_of_abort committed w.now _ rest)
  · obtain ⟨actions, after⟩ := step.transaction_forth transaction
    exact .inr ⟨_, after, (Lived.sound lived transaction).terminal_runAt ended actions⟩

theorem Guarded.run {managers : List Manager} {past : List Action}
    (h : ((initial managers).run past).Guarded r n) (stem : ((initial managers).run past).Stem r n)
    (rest : List Action) : ((initial managers).run (past ++ rest)).Guarded r n := by
  refine (run_induction (P := fun w => w.Stemmed ∧ w.Stem r n ∧ w.Guarded r n) managers rest
    ⟨stemmed_run managers past, stem, h⟩ ?_).2.2
  rintro w w' l order ⟨stemmed, stem, guarded⟩ step
  exact ⟨stemmed.step step, stemmed.stem stem step,
    guarded.step stem stemmed.order stemmed.lived step⟩

end World

end NestedWork
