import NestedWork.Proofs.World.Founding
import NestedWork.Proofs.World.Roll

/-!
# What units and operations refer to

A unit refers to its ancestors and to the transaction that it holds or works in. An operation refers
to its unit and to the transaction of its scope or of its call. All of these exist, and no two trees
refer to one transaction.

## Implementation notes

A unit comes to refer to a transaction in two ways: as the root that opens it, or as a unit that
enters what its root holds. So every reference can be traced to one of the same tree, unless the
transaction has just been opened.
-/

namespace NestedWork

/-- The transactions that a unit refers to. -/
def UnitOfWork.transactions (x : UnitOfWork) : List Nat :=
  (match x.slot with
    | .live n => [n]
    | _ => []) ++ x.current.toList

/-- The transactions that an operation at a stage refers to. -/
def Stage.transactions (s : Stage) : List Nat :=
  (s.scope?.map Scope.transaction).toList ++ (s.inner?.map Inner.transaction).toList

theorem UnitOfWork.mem_transactions {x : UnitOfWork} {n : Nat} :
    n ∈ x.transactions ↔ x.slot = .live n ∨ x.current = some n := by
  unfold transactions
  cases x.slot <;> simp [eq_comm]

theorem Stage.mem_transactions {s : Stage} {n : Nat} :
    n ∈ s.transactions ↔ (∃ scope, s.scope? = some scope ∧ scope.transaction = n) ∨
      ∃ i, s.inner? = some i ∧ i.transaction = n := by
  simp [transactions]

namespace World

variable {w w' : World} {l : Label} {c u v n k thread : Nat} {x x' : UnitOfWork} {s s' : Stage}
  {f : UnitOfWork → UnitOfWork} {actions : List Transaction.Action}

/-- Every reference to a transaction is to one that there is, and those of units to one transaction
are of one tree. -/
structure Confined (w : World) : Prop where
  unit : ∀ {u n : Nat} {x : UnitOfWork}, w.units[u]? = some x → n ∈ x.transactions →
    n < w.transactions.length
  tree : ∀ {u v n : Nat} {x y : UnitOfWork}, w.units[u]? = some x → w.units[v]? = some y →
    n ∈ x.transactions → n ∈ y.transactions → w.rootOf u = w.rootOf v
  stage : ∀ {c n : Nat} {o : Operation}, w.operations[c]? = some o → n ∈ o.stage.transactions →
    n < w.transactions.length

/-! ## Turns -/

/-- A turn leaves what its unit works in, or the unit enters what its root holds. -/
theorem Turns.current (turns : w.Turns c u x thread l s f n actions s') :
    (f x).current = x.current ∨ (f x).current = none ∨
      ∃ y k, w.units[w.rootOf u]? = some y ∧ y.slot = .live k ∧ (f x).current = some k := by
  cases turns with
  | enter root live => exact .inr (.inr ⟨_, _, root, live, rfl⟩)
  | refuse | orphan | succeed | finish | yielded => exact .inr (.inl rfl)
  | @yield _ scope _ _ judges =>
      left
      have same : ∀ y : UnitOfWork, (y.yield scope).current = y.current := by
        intro y
        unfold UnitOfWork.yield
        split <;> rfl
      rw [same]
      cases judges <;> rfl
  | leave leaves => exact .inl (by cases leaves <;> rfl)
  | _ => exact .inl rfl

/-- A turn makes its unit refer to no transaction but that of the root. -/
theorem Turns.unit_transactions (turns : w.Turns c u x thread l s f n actions s')
    (mem : k ∈ (f x).transactions) :
    k ∈ x.transactions ∨ ∃ y, w.units[w.rootOf u]? = some y ∧ y.slot = .live k := by
  rw [UnitOfWork.mem_transactions] at mem ⊢
  rcases mem with held | current
  · rcases turns.kept.2.2 with same | released
    · exact .inl (.inl (same ▸ held))
    · cases released.symm.trans held
  · rcases turns.current with same | none | ⟨y, m, root, live, entered⟩
    · exact .inl (.inr (same ▸ current))
    · cases none.symm.trans current
    · obtain rfl := Option.some.inj (entered.symm.trans current)
      exact .inr ⟨y, root, live⟩

/-- A turn makes its operation refer to no transaction but that of the root. -/
theorem Turns.stage_transactions (turns : w.Turns c u x thread l s f n actions s')
    (mem : k ∈ s'.transactions) : k ∈ s.transactions ∨ x.slot = .live k ∨
      ∃ y, w.units[w.rootOf u]? = some y ∧ y.slot = .live k := by
  rw [Stage.mem_transactions] at mem ⊢
  rcases mem with ⟨scope, entered, rfl⟩ | ⟨i, waits, rfl⟩
  · rcases turns.scope entered with same | ⟨-, -, root⟩
    · exact .inl (.inl ⟨scope, same, rfl⟩)
    · exact .inr (.inr root)
  · cases turns with
    | @fail scope | @complete scope | @discard scope =>
        obtain rfl := Option.some.inj waits
        exact .inl (.inl ⟨scope, rfl, rfl⟩)
    | @yield _ scope _ _ judges =>
        obtain rfl := Option.some.inj waits
        exact .inl (.inl ⟨scope, judges.running.2, rfl⟩)
    | surrender _ live =>
        obtain rfl := Option.some.inj waits
        exact .inr (.inl live)
    | leave =>
        revert waits
        split <;> rintro ⟨⟩
    | _ => cases waits

/-! ## Steps -/

/-- A unit refers after a step to what its tree referred to before, or to a transaction that it has
just opened. -/
theorem Step.unit_transactions (step : w.Step l w') (order : w.Orderly)
    (unit : w'.units[u]? = some x) (mem : n ∈ x.transactions) :
    (∃ v y, w.units[v]? = some y ∧ n ∈ y.transactions ∧ w.rootOf v = w'.rootOf u) ∨
      n = w.transactions.length ∧ ∃ y, w.units[u]? = some y ∧ w' = w.foundAt u y := by
  cases before : w.units[u]? with
  | none =>
      obtain ⟨o, options, rfl⟩ := step.opened before unit
      simp [UnitOfWork.transactions, openedUnit] at mem
  | some x₀ =>
      have root : w.rootOf u = w'.rootOf u := (step.rootOf_eq before).symm
      have here (mem : n ∈ x₀.transactions) : ∃ v y, w.units[v]? = some y ∧ n ∈ y.transactions ∧
          w.rootOf v = w'.rootOf u := ⟨u, x₀, before, mem, root⟩
      cases step.became before unit with
      | kept => exact .inl (here mem)
      | founded _ _ after =>
          rcases UnitOfWork.mem_transactions.mp mem with held | current
          · exact .inr ⟨(Slot.live.inj held).symm, x₀, rfl, after⟩
          · exact .inl (here (UnitOfWork.mem_transactions.mpr (.inr current)))
      | turned turn =>
          obtain ⟨-, turns, -⟩ := turn
          rcases turns.unit_transactions mem with old | ⟨y, top, live⟩
          · exact .inl (here old)
          · refine .inl ⟨_, y, top, UnitOfWork.mem_transactions.mpr (.inl live), ?_⟩
            rw [rootOf_of_isRoot top (order.isRoot_rootOf before top), root]

/-- An operation that has just been begun refers to no transaction. -/
theorem Step.begun_transactions {o : Operation} (step : w.Step l w')
    (absent : w.operations[c]? = none) (begun : w'.operations[c]? = some o) :
    o.stage.transactions = [] := by
  have pushed {o' : Operation} (none : o'.stage.transactions = [])
      (back : w.operations[c]? = some o ∨ c = w.operations.length ∧ o = o') :
      o.stage.transactions = [] := by
    rcases back with old | ⟨-, rfl⟩
    · cases absent.symm.trans old
    · exact none
  cases step with
  | refuse | accept | release => exact pushed rfl (operations_push begun)
  | push aside =>
      refine pushed ?_ (operations_push begun)
      rcases aside with rfl | rfl | rfl <;> rfl
  | turn running =>
      rcases operations_moveTo running begun with ⟨-, old⟩ | ⟨rfl, -⟩
      · cases absent.symm.trans old
      · cases absent.symm.trans running
  | answered running =>
      rcases operations_moveTo running begun with ⟨-, old⟩ | ⟨rfl, -⟩
      · cases absent.symm.trans old
      · cases absent.symm.trans running
  | _ => cases absent.symm.trans begun

/-- An operation refers after a step to what it or a unit referred to before. -/
theorem Step.stage_transactions (step : w.Step l w') {o : Operation}
    (running : w'.operations[c]? = some o) (mem : n ∈ o.stage.transactions) :
    (∃ o₀, w.operations[c]? = some o₀ ∧ n ∈ o₀.stage.transactions) ∨
      ∃ (v : Nat) (y : UnitOfWork), w.units[v]? = some y ∧ n ∈ y.transactions := by
  have held {v : Nat} {y : UnitOfWork} (unit : w.units[v]? = some y) (live : y.slot = .live n) :
      ∃ (v : Nat) (y : UnitOfWork), w.units[v]? = some y ∧ n ∈ y.transactions :=
    ⟨v, y, unit, UnitOfWork.mem_transactions.mpr (.inl live)⟩
  cases before : w.operations[c]? with
  | none =>
      rw [step.begun_transactions before running] at mem
      cases mem
  | some o₀ =>
      obtain ⟨u, thread, s⟩ := o₀
      obtain ⟨s', after, advances⟩ := step.advances before
      obtain rfl := Option.some.inj (running.symm.trans after)
      cases advances with
      | stay => exact .inl ⟨_, rfl, mem⟩
      | answered => simp [Stage.mem_transactions, Stage.scope?, Stage.inner?] at mem
      | turn unit turns =>
          rcases turns.stage_transactions mem with old | live | ⟨y, top, live⟩
          · exact .inl ⟨_, rfl, old⟩
          · exact .inr (held unit live)
          · exact .inr (held top live)

namespace Confined

theorem step (h : w.Confined) (order : w.Orderly) (s : w.Step l w') : w'.Confined where
  unit := by
    intro u n x unit mem
    have more := s.length_transactions_le
    rcases s.unit_transactions order unit mem with ⟨v, y, before, old, -⟩ | ⟨rfl, y, -, rfl⟩
    · exact (h.unit before old).trans_le more
    · simp [foundAt, openTransaction, modifyUnit]
  tree := by
    intro u v n x y first second mem mem'
    -- Only the root that has opened it refers to a transaction that is new.
    have alone {u v : Nat} {y z : UnitOfWork} (founded : w' = w.foundAt u z)
        (unit : w'.units[v]? = some y) (mem : w.transactions.length ∈ y.transactions) : u = v := by
      by_contra ne
      rw [founded, units_foundAt, List.getElem?_modify] at unit
      have before : w.units[v]? = some y := by simpa [ne] using unit
      exact Nat.lt_irrefl _ (h.unit before mem)
    rcases s.unit_transactions order first mem with ⟨u₀, x₀, before, old, root⟩ | ⟨rfl, z, -, new⟩
    · rcases s.unit_transactions order second mem' with
        ⟨v₀, y₀, before', old', root'⟩ | ⟨rfl, z, -, new⟩
      · rw [← root, ← root']
        exact h.tree before before' old old'
      · rw [alone new first mem]
    · rw [alone new second mem']
  stage := by
    intro c n o running mem
    have more := s.length_transactions_le
    rcases s.stage_transactions running mem with ⟨o₀, before, old⟩ | ⟨v, y, before, old⟩
    · exact (h.stage before old).trans_le more
    · exact (h.unit before old).trans_le more

end Confined

theorem confined_initial (managers : List Manager) : (initial managers).Confined := by
  constructor <;> intros <;> simp_all [initial]

theorem confined_run (managers : List Manager) (past : List Action) :
    ((initial managers).run past).Confined := by
  have all : ((initial managers).run ([] ++ past)).Confined :=
    run_induction managers past (confined_initial managers) fun order h s => h.step order s
  simpa using all

/-! ## Registries -/

end World

def Manager.isRegistry : Manager → Bool
  | registry _ => true
  | _ => false

namespace World

/-- Whether a manager is a registry never changes. -/
theorem exists_registry_of_run {managers : List Manager} {past : List Action} {m : Nat}
    {live : List Nat}
    (registry : ((initial managers).run past).managers[m]? = some (.registry live)) :
    ∃ live₀, managers[m]? = some (.registry live₀) := by
  have kinds : ((initial managers).run ([] ++ past)).managers.map Manager.isRegistry =
      managers.map Manager.isRegistry := by
    refine run_induction
      (P := fun w => w.managers.map Manager.isRegistry = managers.map Manager.isRegistry)
      managers past rfl fun {w w' l} _ same s => ?_
    cases s with
    | register m u =>
        refine (map_modify_of_eq (fun M => ?_) w.managers m).trans same
        cases M <;> rfl
    | forget m u =>
        refine (map_modify_of_eq (fun M => ?_) w.managers m).trans same
        cases M <;> rfl
    | _ => exact same
  rw [List.nil_append] at kinds
  have here := congrArg (fun kinds => kinds[m]?) kinds
  simp only [List.getElem?_map, registry, Option.map_some] at here
  obtain ⟨M, there, isRegistry⟩ := Option.map_eq_some_iff.mp here.symm
  cases M with
  | registry live₀ => exact ⟨live₀, there⟩
  | _ => cases isRegistry

/-- Every reference is to something that there is, and those of units to one transaction are of one
tree. -/
structure Contained (w : World) : Prop extends Confined w where
  above : ∀ {u a : Nat} {x : UnitOfWork}, w.units[u]? = some x → a ∈ x.lineage →
    a < w.units.length ∧ w.rootOf a = w.rootOf u
  kept : ∀ {m u : Nat} {live : List Nat}, w.managers[m]? = some (.registry live) → u ∈ live →
    u < w.units.length

/-- The registries are empty. -/
def NoneKept (managers : List Manager) : Prop :=
  ∀ {m : Nat} {live : List Nat}, managers[m]? = some (.registry live) → live = []

/-- Whatever a run refers to exists, if the registries were empty at first. -/
theorem contained_run {managers : List Manager} (empty : NoneKept managers)
    (past : List Action) : ((initial managers).run past).Contained where
  toConfined := confined_run managers past
  above := by
    intro u a x unit mem
    have nested := (graded_run managers past).nested
    obtain ⟨y, above, -⟩ := nested.exists_above unit a (List.mem_cons_of_mem u mem)
    exact ⟨(List.getElem?_eq_some_iff.mp above).1,
      (nested.rootOf_above unit).2 a (List.mem_cons_of_mem u mem)⟩
  kept := by
    intro m u live registry mem
    obtain ⟨live₀, first⟩ := exists_registry_of_run registry
    obtain rfl := empty first
    obtain ⟨live', registry', -, due⟩ := enrolled_run managers past first
    cases registry.symm.trans registry'
    obtain ⟨x, unit, -⟩ := (due u).mp mem
    exact (List.getElem?_eq_some_iff.mp unit).1

end World

end NestedWork
