import NestedWork.Proofs.World.Founding

/-!
# What a unit tells about its transaction

A unit that is not disposed of tells about a transaction exactly while its capability is at work,
and what it tells is what the one transaction of its tree shows at that moment. While the commit of
a root waits for its transaction, or leads it to its end, the unit tells nothing.

## Implementation notes

The answer is put together from the mark of a disposal, the status, and the transaction that the
running commit works in. The status is that of a commit whose capability is at work, and there is
one such commit at most. So it remains to be seen that the unit still refers to the transaction of
that commit's scope, whoever else deals with the unit meanwhile.
-/

namespace NestedWork.World

variable {w w' : World} {l : Label} {c u r m n thread : Nat} {x : UnitOfWork} {s s' : Stage}
  {f : UnitOfWork → UnitOfWork} {actions : List Transaction.Action} {scope : Scope}
  {managers : List Manager} {past : List Action} {front rest ws : List World}

/-! ## What a unit at work refers to -/

/-- A unit at work refers to the transaction that its commit works in. -/
def Pointed (w : World) : Prop :=
  ∀ {c u thread : Nat} {scope : Scope} {x : UnitOfWork},
    w.operations[c]? = some ⟨u, thread, .work scope⟩ → w.units[u]? = some x →
      x.current = some scope.transaction

/-- An operation that is no commit under way leaves alone what its unit works in. -/
theorem Turns.current_of_idle (turns : w.Turns c u x thread l s f n actions s')
    (idle : s.isRunning = false) : (f x).current = x.current := by
  cases turns with
  | finish judges | yield judges =>
      rw [judges.running.1] at idle
      cases idle
  | decline | dispose | surrender => rfl
  | leave leaves => cases leaves <;> rfl
  | _ => cases idle

/-- Nothing that happens to a unit at work changes what it works in. -/
theorem Step.current_of_work {x' : UnitOfWork} (step : w.Step l w') (order : w.Orderly)
    (before : w.operations[c]? = some ⟨u, thread, .work scope⟩)
    (after : w'.operations[c]? = some ⟨u, thread, .work scope⟩) (unit : w.units[u]? = some x)
    (unit' : w'.units[u]? = some x') : x'.current = x.current := by
  cases step.became unit unit' with
  | kept => rfl
  | founded => rfl
  | turned turn =>
      obtain ⟨running, turns, -⟩ := turn
      rename_i d thread' k s s' f actions
      cases busy : s.isRunning with
      | false => exact turns.current_of_idle busy
      | true =>
          -- Only the commit itself runs on the unit, and its turn would have led it on.
          obtain rfl := order.alone running before busy rfl
          cases running.symm.trans before
          have active := ((order.step step).shown after unit' rfl).2
          exact absurd (Option.some.inj active).symm turns.of_work

/-- A commit that gets to the capability refers its unit to the transaction of its scope. -/
theorem Turns.current_of_admission
    (turns : w.Turns c u x thread l .admission f n actions (.work scope)) :
    (f x).current = some scope.transaction := by
  generalize eq : Stage.work scope = s' at turns
  cases turns with
  | enter =>
      obtain rfl := Stage.work.inj eq
      rfl
  | leave =>
      revert eq
      split <;> rintro ⟨⟩
  | _ => cases eq

theorem Pointed.step (h : w.Pointed) (order : w.Orderly) (step : w.Step l w') : w'.Pointed := by
  intro c u thread scope x' running unit'
  rcases step.work_back running with before | waits
  · obtain ⟨x, unit⟩ := order.seated before rfl
    rw [step.current_of_work order before running unit unit']
    exact h before unit
  · obtain ⟨s', after, advances⟩ := step.advances waits
    cases running.symm.trans after
    cases advances with
    | turn unit turns eq =>
        subst eq
        obtain rfl := Option.some.inj (unit'.symm.trans (units_evolve unit))
        exact turns.current_of_admission

/-- What holds of the units and operations all along a course, as far as a unit tells of it. -/
theorem Course.pointed (course : Course managers past ws) :
    ∀ w ∈ ws, w.Stemmed ∧ w.Busy ∧ w.Pointed := by
  apply course.forall_mem (P := fun w => w.Stemmed ∧ w.Busy ∧ w.Pointed)
  · refine ⟨stemmed_initial managers, ?_, ?_⟩
    · intro u x unit
      cases unit
    · intro c u thread scope x running
      cases running
  · rintro w w' l ⟨stemmed, busy, pointed⟩ step
    exact ⟨stemmed.step step, busy.step step, pointed.step stemmed.order step⟩

/-! ## The transaction of the tree -/

/-- What a capability works in was owned by the root of its unit at some time before. -/
theorem Course.exists_owns_of_work (course : Course managers past ws)
    (split : ws = front ++ w :: rest)
    (work : w.operations[c]? = some ⟨u, thread, .work scope⟩) :
    ∃ v ∈ front, v.Owns (w.rootOf u) scope.transaction := by
  have all := course.induction_split (P := fun front w => w.Orderly ∧
    ∀ {c u thread : Nat} {scope : Scope}, w.operations[c]? = some ⟨u, thread, .work scope⟩ →
      ∃ v ∈ front, v.Owns (w.rootOf u) scope.transaction)
    ⟨orderly_initial managers, fun work => nomatch work⟩ (fun {front v w l} ih step => ?_) split
  · exact all.2 work
  · obtain ⟨order, earlier⟩ := ih
    refine ⟨order.step step, fun {c u thread scope} work => ?_⟩
    rcases step.scope_cases work rfl with ⟨s, before, within⟩ | ⟨waits, -, y, root, live⟩
    · have before : v.operations[c]? = some ⟨u, thread, .work scope⟩ := by
        refine (step.work_back work).resolve_right fun waits => ?_
        cases waits.symm.trans before
        cases within
      obtain ⟨x, unit⟩ := order.seated before rfl
      obtain ⟨v', mem, owns⟩ := earlier before
      exact ⟨v', List.mem_append_left _ mem, step.rootOf_eq unit ▸ owns⟩
    · obtain ⟨x, unit⟩ := order.seated waits rfl
      exact ⟨v, by simp, y, step.rootOf_eq unit ▸ root, live⟩

/-- In the course of a run a root owns one transaction at most. -/
theorem Course.owns_unique (course : Course managers past ws) {v v' : World} (mem : v ∈ ws)
    (mem' : v' ∈ ws) (owns : v.Owns r n) (owns' : v'.Owns r m) : m = n := by
  obtain ⟨front, split⟩ := course.exists_eq_concat
  have all := course.induction_split (P := fun front w => w.Stemmed ∧
    ∀ v ∈ front ++ [w], ∀ n, v.Owns r n →
      w.Stem r n ∧ ∀ v' ∈ front ++ [w], ∀ m, v'.Owns r m → m = n)
    ?_ (fun {front w w' l} ih step => ?_) split
  · rw [split] at mem mem'
    exact (all.2 v mem n owns).2 v' mem' m owns'
  · refine ⟨stemmed_initial managers, fun v mem n owns => ?_⟩
    obtain rfl := List.mem_singleton.mp mem
    obtain ⟨x, unit, -⟩ := owns
    cases unit
  · obtain ⟨stemmed, earlier⟩ := ih
    have now {n : Nat} (owns : w'.Owns r n) : w'.Stem r n := by
      obtain ⟨x, unit, live⟩ := owns
      exact (stemmed.step step).held unit live
    have same {n m : Nat} (stem : w'.Stem r n) (owns : w'.Owns r m) : m = n := by
      obtain ⟨x, unit, live⟩ := owns
      exact stem.holds.eq_of_live unit live
    refine ⟨stemmed.step step, fun v mem n owns => ?_⟩
    rcases List.mem_append.mp mem with old | new
    · obtain ⟨stem, only⟩ := earlier v old n owns
      refine ⟨stemmed.stem stem step, fun v' mem' m owns' => ?_⟩
      rcases List.mem_append.mp mem' with old' | new'
      · exact only v' old' m owns'
      · obtain rfl := List.mem_singleton.mp new'
        exact same (stemmed.stem stem step) owns'
    · obtain rfl := List.mem_singleton.mp new
      refine ⟨now owns, fun v' mem' m owns' => ?_⟩
      rcases List.mem_append.mp mem' with old' | new'
      · exact (same (stemmed.stem (earlier v' old' m owns').1 step) owns).symm
      · obtain rfl := List.mem_singleton.mp new'
        exact same (now owns) owns'

/-! ## What is told -/

theorem transactionInformation_of (unit : w.units[u]? = some x) : w.transactionInformation u =
    if x.disposed then .error (.disposed x.id)
    else if x.status ≠ .active then .ok none
    else .ok (x.current.bind fun n => (w.transactions[n]?).map Transaction.information) := by
  simp only [transactionInformation, unit, Option.map_eq_bind]
  rfl

/-- A unit tells what its transaction shows, while its capability is at work and at no other time.

Take any world in the course of a run and any unit in it. The unit answers that it is disposed
exactly if it is. Otherwise, while its capability is at work, it tells what a transaction shows at
that moment: the one that the root of its tree has come to own before, and the only one that the
root owns in the whole run. While its capability is not at work it tells nothing, so in particular
not while the commit of its own transaction is under way. -/
theorem information_faithful (managers : List Manager) (past : List Action) (ws : List World)
    (course : Course managers past ws) (front rest : List World) (w : World)
    (split : ws = front ++ w :: rest) (u : Nat) (x : UnitOfWork) (unit : w.units[u]? = some x) :
    (w.transactionInformation u = .error (.disposed x.id) ↔ x.disposed = true) ∧
      (x.disposed = false → (∃ c, w.isAtWork u c = true) →
        ∃ (n : Nat) (t : Transaction), (∃ v ∈ front, v.Owns (w.rootOf u) n) ∧
          (∀ v ∈ ws, ∀ m, v.Owns (w.rootOf u) m → m = n) ∧ w.transactions[n]? = some t ∧
          w.transactionInformation u =
            .ok (some ⟨t.localId, t.createdAt, t.status, t.isolation⟩)) ∧
      (x.disposed = false → (∀ c, w.isAtWork u c = false) →
        w.transactionInformation u = .ok none) ∧
      (x.disposed = false → ∀ (c thread : Nat) (scope : Scope) (inner : Inner),
        w.operations[c]? = some ⟨u, thread, .completing scope inner⟩ →
          w.transactionInformation u = .ok none) := by
  have mem : w ∈ ws := split ▸ List.mem_append_right _ (List.mem_cons_self ..)
  obtain ⟨stemmed, busy, pointed⟩ := course.pointed w mem
  have told := transactionInformation_of unit
  refine ⟨?_, fun kept working => ?_, fun kept idle => ?_, fun kept c thread scope inner ends => ?_⟩
  · rw [told]
    cases x.disposed with
    | true => simp
    | false => by_cases active : x.status = .active <;> simp [active]
  · obtain ⟨c, work⟩ := working
    obtain ⟨thread, scope, running⟩ := isAtWork_iff.mp work
    have active : x.status = .active :=
      (Option.some.inj (stemmed.order.shown running unit rfl).2).symm
    obtain ⟨v, earlier, owns⟩ := course.exists_owns_of_work split running
    have earlier' : v ∈ ws := split ▸ List.mem_append_left _ earlier
    have transaction :=
      List.getElem?_eq_getElem (stemmed.order.entered running unit rfl).2
    refine ⟨scope.transaction, _, ⟨v, earlier, owns⟩,
      fun v' mem' m owns' => course.owns_unique earlier' mem' owns owns', transaction, ?_⟩
    rw [told, if_neg (by simp [kept]), if_neg (by simp [active]), pointed running unit,
      Option.bind_some, transaction]
    rfl
  · have other : x.status ≠ .active := by
      intro active
      obtain ⟨c, thread, scope, running⟩ := busy unit active
      cases (idle c).symm.trans (isAtWork_iff.mpr ⟨thread, scope, running⟩)
    rw [told, if_neg (by simp [kept]), if_pos other]
  · have committed : x.status = .committed :=
      (Option.some.inj (stemmed.order.shown ends unit rfl).2).symm
    rw [told, if_neg (by simp [kept]), if_pos (by simp [committed])]

/-- A leaf at work tells that the transaction was aborted, once its root has been dropped. -/
theorem information_faithful_abandoned :
    let w := (initial [.permissive]).run abandoned
    ∃ ws front, Course [.permissive] abandoned ws ∧ ws = front ++ [w] ∧
      ∃ (x : UnitOfWork) (n : Nat) (t : Transaction), w.units[1]? = some x ∧
        x.disposed = false ∧ w.isAtWork 1 2 = true ∧
        (∃ v ∈ front, v.Owns 0 n) ∧ w.transactions[n]? = some t ∧ t.status = .aborted ∧
        w.transactionInformation 1 =
          .ok (some ⟨t.localId, t.createdAt, t.status, t.isolation⟩) := by
  intro w
  obtain ⟨ws, course⟩ := exists_course [.permissive] abandoned
  obtain ⟨front, split⟩ := course.exists_eq_concat
  obtain ⟨x, unit, kept⟩ : ∃ x, w.units[1]? = some x ∧ x.disposed = false := ⟨_, rfl, rfl⟩
  have work : w.isAtWork 1 2 = true := rfl
  obtain ⟨n, t, owns, -, transaction, told⟩ :=
    (information_faithful [.permissive] abandoned ws course front [] w split 1 x unit).2.1 kept
      ⟨2, work⟩
  have aborted : t.status = .aborted := by
    rcases n with _ | n
    · obtain rfl := Option.some.inj transaction
      rfl
    · cases transaction
  exact ⟨ws, front, course, split, x, n, t, unit, kept, work, owns, transaction, aborted, told⟩

end NestedWork.World
