import NestedWork.Proofs.World.Scene

/-!
# Independence of the schedule

Units of different trees come to the same whether they are committed at once, by any number of
workers in any order of their turns, or one after another on a single thread.

## Implementation notes

Both are compared with the trees by themselves. Whoever has committed all units has taken each tree
to the state in which its commit has returned there.
-/

namespace NestedWork

/-! ## One after another -/

namespace Task

/-- A commit that has been begun on a tree goes on, while time passes. -/
inductive Follows (t : Task) (p c : Nat) : Division → Division → Prop
  | refl (d : Division) : Follows t p c d d
  | proceed {d d' : Division} (out : d.world.returned? c = none)
      (rest : Follows t p c (d.proceed (t.conduct p) t.home p) d') : Follows t p c d d'
  | tick {d d' : Division} (nanos : Nat) (rest : Follows t p c (d.tick nanos) d') :
      Follows t p c d d'

/-- The units from a position on are committed at home, in the order of the list: each commit
returns before the next is begun. -/
inductive InTurn (t : Task) : Nat → Division → List CommitOutcome → Division → Prop
  | nil {p : Nat} {d : Division} (past : t.units.length ≤ p) : InTurn t p d [] d
  | cons {p u : Nat} {x : UnitOfWork} {d d' d'' : Division}
      {r : Except Violation (Response Unit)} {rest : List CommitOutcome}
      (there : t.units[p]? = some u) (unit : d.world.units[u]? = some x)
      (follows : t.Follows p d.world.operations.length (d.begin p u t.home) d')
      (returned : d'.world.returned? d.world.operations.length = some r)
      (others : InTurn t (p + 1) d' rest d'') : InTurn t p d (⟨x.id, r⟩ :: rest) d''

end Task

/-! ## What a division has come to -/

/-- What has become of a transaction: its status, the reason of its abort, and the dependents
outstanding. -/
def Transaction.upshot (t : Transaction) : Status × Option AbortReason × Nat × Nat :=
  (t.status, t.abortReason, t.blocking, t.nonBlocking)

@[simp] theorem Transaction.upshot_timeless (t : Transaction) (n : Nat) :
    (t.timeless n).upshot = t.upshot := rfl

@[simp] theorem UnitOfWork.status_rename (ν : Naming) (x : UnitOfWork) :
    (x.rename ν).status = x.status := rfl

namespace Division

/-- What has become of the units of a share and of its transactions, in the order in which they came
about. -/
def report (d : Division) (p : Nat) :
    List Status × List (Status × Option AbortReason × Nat × Nat) :=
  ((gather d.world.units (d.shares p).units).map UnitOfWork.status,
    (gather d.world.transactions (d.shares p).transactions).map Transaction.upshot)

/-- The view of a share tells what has become of it. -/
theorem report_eq (d : Division) (home p : Nat) : d.report p =
    ((d.view home p).units.map UnitOfWork.status,
      (d.view home p).transactions.map Transaction.upshot) := by
  apply congrArg₂ Prod.mk
  · simp [view, World.view, Function.comp_def]
  · apply List.ext_getElem?
    intro i
    simp [view, World.view, Function.comp_def]

end Division

namespace Task

/-- Two divisions agree on all that has become of the units and of their transactions. -/
structure Agree (t : Task) (d d' : Division) : Prop where
  views : ∀ p, d.view t.home p = d'.view t.home p
  reports : ∀ p, d.report p = d'.report p
  units : ∀ u < t.world.units.length,
    (d.world.units[u]?).map UnitOfWork.status = (d'.world.units[u]?).map UnitOfWork.status
  transactions : ∀ n < t.world.transactions.length,
    (d.world.transactions[n]?).map Transaction.upshot =
      (d'.world.transactions[n]?).map Transaction.upshot

/-- All that has come about since the units were to be committed belongs to their trees. -/
structure Covers (t : Task) (d : Division) : Prop where
  units : ∀ u < d.world.units.length, t.world.units.length ≤ u → ∃ p, u ∈ (d.shares p).units
  transactions : ∀ n < d.world.transactions.length, t.world.transactions.length ≤ n →
    ∃ p, n ∈ (d.shares p).transactions

/-- All units of a task have been committed, with the given outcomes. -/
structure Ended (t : Task) (progress : Nat → Option Nat) (d : Division)
    (outcomes : List CommitOutcome) : Prop where
  standing : t.Standing progress d
  begun : ∀ {p n : Nat}, progress p = some n → p < t.units.length
  length : outcomes.length = t.units.length
  yields : ∀ {p : Nat} {o : CommitOutcome}, outcomes[p]? = some o →
    ∃ n, progress p = some n ∧ t.Yields p n o

variable {t : Task} {threads : List Nat} {progress progress' : Nat → Option Nat}
  {d d' : Division} {outcomes outcomes' : List CommitOutcome} {p c n : Nat}

namespace Standing

/-- What the trees have not got is as it was. -/
theorem covers (h : t.Standing progress d) : t.Covers d where
  units := by
    intro u lt ge
    by_contra none
    rw [not_exists] at none
    have gone := h.spares.units u none
    rw [List.getElem?_eq_none ge] at gone
    exact absurd (List.getElem?_eq_none_iff.mp gone) (Nat.not_le_of_lt lt)
  transactions := by
    intro n lt ge
    by_contra none
    rw [not_exists] at none
    have gone := h.spares.transactions n none
    rw [List.getElem?_eq_none ge] at gone
    exact absurd (List.getElem?_eq_none_iff.mp gone) (Nat.not_le_of_lt lt)

/-- What has become of a unit is seen in the view of its tree. -/
theorem status_eq (h : t.Standing progress d) {i u : Nat}
    (there : (t.share p).units[i]? = some u) :
    (d.world.units[u]?).map UnitOfWork.status =
      ((d.view t.home p).units[i]?).map UnitOfWork.status := by
  have place := (h.growth.units p).getElem? there
  simp [Division.view, World.view, getElem?_gather (h.proper.fits p).units.2, place,
    Function.comp_def]

/-- What has become of a transaction is seen in the view of its tree. -/
theorem upshot_eq (h : t.Standing progress d) {i n : Nat}
    (there : (t.share p).transactions[i]? = some n) :
    (d.world.transactions[n]?).map Transaction.upshot =
      ((d.view t.home p).transactions[i]?).map Transaction.upshot := by
  have place := (h.growth.transactions p).getElem? there
  simp [Division.view, World.view, getElem?_gather (h.proper.fits p).transactions.2, place,
    Function.comp_def]

/-- If the trees look the same, then all that there was has come to the same. -/
theorem agree (h : t.Standing progress d) (h' : t.Standing progress' d')
    (views : ∀ p, d.view t.home p = d'.view t.home p) : t.Agree d d' where
  views := views
  reports := fun p => by rw [d.report_eq t.home, d'.report_eq t.home, views]
  units := by
    intro u lt
    -- a unit of a tree is seen in the view of the tree, and any other has been spared
    by_cases own : ∃ p, u ∈ (t.share p).units
    · obtain ⟨p, mem⟩ := own
      obtain ⟨i, there⟩ := List.getElem?_of_mem mem
      rw [h.status_eq there, h'.status_eq there, views]
    · rw [not_exists] at own
      rw [h.spares.units u fun p mem => own p ((h.growth.units p).old u mem lt),
        h'.spares.units u fun p mem => own p ((h'.growth.units p).old u mem lt)]
  transactions := by
    intro n lt
    by_cases own : ∃ p, n ∈ (t.share p).transactions
    · obtain ⟨p, mem⟩ := own
      obtain ⟨i, there⟩ := List.getElem?_of_mem mem
      rw [h.upshot_eq there, h'.upshot_eq there, views]
    · rw [not_exists] at own
      rw [h.spares.transactions n fun p mem => own p ((h.growth.transactions p).old n mem lt),
        h'.spares.transactions n fun p mem => own p ((h'.growth.transactions p).old n mem lt)]

end Standing

namespace Ended

/-- Each position has come to its end. -/
theorem settled (h : t.Ended progress d outcomes) (lt : p < t.units.length) :
    ∃ n, progress p = some n ∧ ((t.solo p n).returned? 0).isSome = true := by
  obtain ⟨n, far, yields⟩ := h.yields (List.getElem?_eq_getElem (h.length.symm ▸ lt))
  exact ⟨n, far, yields.settled⟩

/-- A tree on which nothing has been begun looks as it did at first. -/
theorem view_eq (h : t.Ended progress d outcomes) (ge : ¬ p < t.units.length) :
    d.view t.home p = t.start.view t.home p := by
  cases far : progress p with
  | none => exact (h.standing.waiting far).2
  | some n => exact absurd (h.begun far) ge

/-- However the units have been committed, they have come to the same. -/
theorem unique (h : t.Ended progress d outcomes) (h' : t.Ended progress' d' outcomes') :
    outcomes = outcomes' ∧ t.Agree d d' := by
  constructor
  · apply List.ext_getElem
    · rw [h.length, h'.length]
    · intro p lt lt'
      obtain ⟨n, -, yields⟩ := h.yields (List.getElem?_eq_getElem lt)
      obtain ⟨m, -, yields'⟩ := h'.yields (List.getElem?_eq_getElem lt')
      exact yields.unique yields'
  · refine h.standing.agree h'.standing fun p => ?_
    by_cases lt : p < t.units.length
    · obtain ⟨n, far, settled⟩ := h.settled lt
      obtain ⟨m, far', settled'⟩ := h'.settled lt
      calc d.view t.home p
        _ = t.solo p n := h.standing.going far
        _ = t.solo p m := solo_eq_of_returned settled' settled
        _ = d'.view t.home p := (h'.standing.going far').symm
    · rw [h.view_eq lt, h'.view_eq lt]

end Ended

/-! ## The serial course -/

/-- The commit of each unit returns if its tree is alone. -/
def Returning (t : Task) : Prop :=
  ∀ p < t.units.length, ∃ n, ((t.solo p n).returned? 0).isSome = true

theorem Ended.returning (h : t.Ended progress d outcomes) : t.Returning :=
  fun _ lt => (h.settled lt).imp fun _ => And.right

namespace Standing

variable (h : t.Standing progress d) (fair : t.Fair threads)

include h fair

/-- A commit that goes on takes its tree further, and no other. -/
theorem follow (follows : t.Follows p c d d') (far : progress p = some n)
    (lt : p < t.units.length) (first : (d.shares p).operations[0]? = some c) :
    ∃ m, t.Standing (Function.update progress p (some m)) d' ∧
      (d'.shares p).operations[0]? = some c := by
  induction follows generalizing progress n with
  | refl d =>
      refine ⟨n, ?_, first⟩
      rwa [← far, Function.update_eq_self]
  | @proceed d d' out rest ih =>
      have out' : (t.solo p n).returned? 0 = none := by
        rw [← h.returned? fair far first, out]
      have touches := h.proceed fair far lt out'
      obtain ⟨m, standing, same⟩ := ih (h.touch touches) (Function.update_self ..)
        ((touches.growth.operations p).getElem? first)
      rw [Function.update_idem] at standing
      exact ⟨m, standing, same⟩
  | tick nanos rest ih => exact ih (h.tick nanos) far first

/-- A commit that returns if its tree is alone can go on until it returns. -/
theorem exists_follows (far : progress p = some n) (lt : p < t.units.length)
    (first : (d.shares p).operations[0]? = some c) (k : Nat)
    (settled : ((t.solo p (n + k)).returned? 0).isSome = true) :
    ∃ d' r, t.Follows p c d d' ∧ d'.world.returned? c = some r := by
  induction k generalizing progress d n with
  | zero =>
      obtain ⟨r, returned⟩ := Option.isSome_iff_exists.mp settled
      exact ⟨d, r, .refl d, by rw [h.returned? fair far first]; exact returned⟩
  | succ k ih =>
      cases out : d.world.returned? c with
      | some r => exact ⟨d, r, .refl d, out⟩
      | none =>
          have out' : (t.solo p n).returned? 0 = none := by
            rw [← h.returned? fair far first, out]
          have touches := h.proceed fair far lt out'
          obtain ⟨d', r, rest, returned⟩ := ih (h.touch touches) (Function.update_self ..)
            ((touches.growth.operations p).getElem? first)
            (by rwa [Nat.add_right_comm, Nat.add_assoc n k 1])
          exact ⟨d', r, .proceed out rest, returned⟩

/-- The commit of the next unit, from its beginning to its return. -/
theorem commitNext {u : Nat} {x : UnitOfWork} {r : Except Violation (Response Unit)}
    (waits : progress p = none) (there : t.units[p]? = some u)
    (unit : d.world.units[u]? = some x)
    (follows : t.Follows p d.world.operations.length (d.begin p u t.home) d')
    (returned : d'.world.returned? d.world.operations.length = some r) :
    ∃ m, t.Standing (Function.update progress p (some m)) d' ∧ t.Yields p m ⟨x.id, r⟩ := by
  have lt := (List.getElem?_eq_some_iff.mp there).1
  have begun := h.touch (h.begin fair waits there (.inl rfl))
  obtain ⟨m, standing, first⟩ := begun.follow fair follows (Function.update_self ..) lt
    (h.operations_begin fair waits there t.home)
  rw [Function.update_idem] at standing
  refine ⟨m, standing, ?_, ?_⟩
  · have named := h.id_eq fair waits there
    rw [unit] at named
    rw [id?, there, Option.bind_some, ← named, Option.map_some]
  · rw [← standing.returned? fair (Function.update_self ..) first, returned]

/-- Units that are committed in turn yield their outcomes, and the others are left as they are. -/
theorem inTurn (inTurn : t.InTurn p d outcomes d')
    (waits : ∀ q, p ≤ q → progress q = none) :
    ∃ progress', t.Standing progress' d' ∧ (∀ q < p, progress' q = progress q) ∧
      (∀ q, t.units.length ≤ q → progress' q = progress q) ∧
      outcomes.length = t.units.length - p ∧
      ∀ i o, outcomes[i]? = some o →
        ∃ n, progress' (p + i) = some n ∧ t.Yields (p + i) n o := by
  induction inTurn generalizing progress with
  | @nil p d past =>
      refine ⟨progress, h, fun _ _ => rfl, fun _ _ => rfl, ?_, ?_⟩
      · rw [Nat.sub_eq_zero_of_le past, List.length_nil]
      · rintro i o ⟨⟩
  | @cons p u x d d' d'' r rest there unit follows returned others ih =>
      have lt := (List.getElem?_eq_some_iff.mp there).1
      obtain ⟨m, standing, yields⟩ :=
        h.commitNext fair (waits p (Nat.le_refl p)) there unit follows returned
      have waits' (q : Nat) (le : p + 1 ≤ q) :
          Function.update progress p (some m) q = none := by
        rw [Function.update_of_ne (by omega), waits q (by omega)]
      obtain ⟨progress', standing', before, beyond, length, after⟩ := ih standing waits'
      have here : progress' p = some m := by
        rw [before p (Nat.lt_succ_self p), Function.update_self]
      refine ⟨progress', standing', fun q less => ?_, fun q more => ?_, ?_, ?_⟩
      · rw [before q (by omega), Function.update_of_ne (by omega)]
      · rw [beyond q more, Function.update_of_ne (by omega)]
      · rw [List.length_cons, length]
        omega
      · intro i o there'
        cases i with
        | zero =>
            obtain rfl := Option.some.inj there'
            exact ⟨m, here, yields⟩
        | succ i =>
            have later := after i o there'
            rwa [Nat.add_right_comm, Nat.add_assoc p i 1] at later

/-- If the commits return, then the units can be committed in turn. -/
theorem exists_inTurn (returning : t.Returning) (waits : ∀ q, p ≤ q → progress q = none) :
    ∃ outcomes d', t.InTurn p d outcomes d' := by
  -- by induction on the number of units that are still to be committed
  obtain ⟨k, rest⟩ : ∃ k, t.units.length - p = k := ⟨_, rfl⟩
  induction k generalizing p progress d with
  | zero => exact ⟨[], d, .nil (Nat.le_of_sub_eq_zero rest)⟩
  | succ k ih =>
      have lt : p < t.units.length := by omega
      have there := List.getElem?_eq_getElem lt
      have known : t.units[p] < d.world.units.length :=
        (fair.known _ (List.getElem_mem lt)).trans_le h.growth.grows.units
      have unit := List.getElem?_eq_getElem known
      have begun := h.touch (h.begin fair (waits p (Nat.le_refl p)) there (.inl rfl))
      obtain ⟨m, settled⟩ := returning p lt
      obtain ⟨d', r, follows, returned⟩ := begun.exists_follows fair (Function.update_self ..) lt
        (h.operations_begin fair (waits p (Nat.le_refl p)) there t.home) m (by rwa [Nat.zero_add])
      obtain ⟨n, standing, -⟩ :=
        h.commitNext fair (waits p (Nat.le_refl p)) there unit follows returned
      have waits' (q : Nat) (le : p + 1 ≤ q) :
          Function.update progress p (some n) q = none := by
        rw [Function.update_of_ne (by omega), waits q (by omega)]
      obtain ⟨outcomes, d'', others⟩ := ih standing waits' (by omega)
      exact ⟨_, d'', .cons there unit follows returned others⟩

end Standing

/-- Whoever commits all units in turn has committed them all. -/
theorem InTurn.ended (inTurn : t.InTurn 0 t.start outcomes d) (fair : t.Fair threads) :
    ∃ progress, t.Ended progress d outcomes := by
  obtain ⟨progress, standing, -, beyond, length, yields⟩ :=
    fair.standing.inTurn fair inTurn fun _ _ => rfl
  refine ⟨progress, standing, fun {p n} far => ?_, by rw [length, Nat.sub_zero],
    fun {p o} there => ?_⟩
  · refine Nat.lt_of_not_le fun le => ?_
    cases (beyond p le).symm.trans far
  · simpa using yields p o there

end Task

/-! ## At once -/

namespace Scene

variable {t : Task} {threads : List Nat} {progress : Nat → Option Nat} {s : Scene}

/-- If there are workers whenever there are units, then workers that have all finished have
committed all units. -/
theorem Manned.ended (h : Manned t threads progress s) (crew : t.units = [] ∨ threads ≠ [])
    (finished : s.batch.isFinished = true) :
    t.Ended progress s.division s.batch.outcomes := by
  obtain ⟨done, account⟩ := h.account
  have manned : s.batch.units = [] ∨ s.batch.workers ≠ [] := by
    rw [h.units]
    refine crew.imp_right fun some none => some ?_
    rw [← h.threads, none, List.map_nil]
  obtain ⟨all, -⟩ := account.finish finished manned
  rw [h.units] at all
  refine ⟨h.standing, fun far => (h.begun far).2, ?_, fun there => ?_⟩
  · rw [Batch.outcomes, List.length_map, (sortByPosition_perm _).length_eq,
      ← List.length_map (f := Prod.fst), all.length_eq, List.length_range]
  · obtain ⟨k, x, worker, found⟩ := Batch.mem_found_of_outcomes all there
    exact (h.attends worker).found found

/-- If the commits return, then workers that get turns enough finish. -/
theorem Manned.isFinished (h : Manned t threads progress s) (fair : t.Fair threads)
    (returning : t.Returning) : ∃ N, ∀ moves : List Move,
      (∀ k < threads.length, N ≤ moves.count (.worker k)) →
        (s.run t moves).batch.isFinished = true := by
  have returning (p : Nat) :
      ∃ n, p < t.units.length → ((t.solo p n).returned? 0).isSome = true := by
    by_cases lt : p < t.units.length
    · exact (returning p lt).imp fun _ settled _ => settled
    · exact ⟨0, fun lt' => absurd lt' lt⟩
  choose ends ended using returning
  refine ⟨s.batch.effort ends progress + 1, fun moves enough => ?_⟩
  obtain ⟨progress', after⟩ := h.run fair moves
  refine List.all_eq_true.mpr fun x mem => ?_
  obtain ⟨k, worker⟩ := List.getElem?_of_mem mem
  have lt : k < threads.length := by
    rw [← after.threads, List.length_map]
    exact (List.getElem?_eq_some_iff.mp worker).1
  by_contra going
  have le := (h.count_le fair ended moves worker (by simpa using going)).2
  exact absurd (enough k lt) (Nat.not_le_of_lt (Nat.lt_succ_of_le le))

/-- There are schedules that give as many turns as one likes to each worker. -/
theorem exists_turns (N count : Nat) :
    ∃ moves : List Move, ∀ k < count, N ≤ moves.count (.worker k) := by
  induction count with
  | zero => exact ⟨[], fun k lt => absurd lt (Nat.not_lt_zero k)⟩
  | succ count ih =>
      obtain ⟨moves, enough⟩ := ih
      refine ⟨moves ++ List.replicate N (.worker count), fun k lt => ?_⟩
      rw [List.count_append]
      rcases Nat.lt_succ_iff_lt_or_eq.mp lt with less | rfl
      · exact (enough k less).trans (Nat.le_add_right _ _)
      · rw [List.count_replicate_self]
        exact Nat.le_add_left _ _

end Scene

namespace Task

variable {t : Task} {threads : List Nat}

/-- Units of different trees come to the same, whether they are committed at once or one after
another.

The units are of different trees, under managers that keep no list or the list of the units that are
open, and this may be one list for all. What is done on a tree is done on that tree only and depends
on nothing but its state, and no commit waits. As many workers as the degree of parallelism allows
commit the units on threads of their own, in any order of their turns, while time passes; this is a
run of the batch. The workers can finish if and only if the units can be committed in turn on one
thread, on which no unit was opened. In this case they do finish as soon as each of them has had
turns enough, and whenever they have finished, the outcomes are those of the commits in turn, and
the units and their transactions are in the same state as after these, with all that has come about
in the trees. -/
theorem commits_independent (t : Task) (threads : List Nat) (options : TransactionOptions)
    (fair : t.Fair threads) (manned : threads.length = Batch.workerCount t.units options) :
    (∀ moves, ∃ moves', Batch.run t.world (Batch.create t.units threads) moves' =
      (((t.scene threads).run t moves).division.world, ((t.scene threads).run t moves).batch)) ∧
    ((∃ moves, ((t.scene threads).run t moves).batch.isFinished = true) ↔
      ∃ outcomes d, t.InTurn 0 t.start outcomes d) ∧
    ∀ outcomes d, t.InTurn 0 t.start outcomes d → t.Covers d ∧
      (∃ N, ∀ moves : List Scene.Move, (∀ k < threads.length, N ≤ moves.count (.worker k)) →
        ((t.scene threads).run t moves).batch.isFinished = true) ∧
      ∀ moves, ((t.scene threads).run t moves).batch.isFinished = true →
        ((t.scene threads).run t moves).batch.outcomes = outcomes ∧
          t.Agree ((t.scene threads).run t moves).division d ∧
            t.Covers ((t.scene threads).run t moves).division := by
  -- the degree of parallelism is positive, so there are no workers only if there are no units
  have crew : t.units = [] ∨ threads ≠ [] := by
    have pos := options.parallelism_pos
    rw [Batch.workerCount] at manned
    rcases Nat.eq_zero_or_pos t.units.length with none | some
    · exact .inl (List.eq_nil_of_length_eq_zero none)
    · exact .inr (List.ne_nil_of_length_pos (by omega))
  have start := Scene.Manned.start fair
  have ended {moves : List Scene.Move}
      (finished : ((t.scene threads).run t moves).batch.isFinished = true) :
      ∃ progress, t.Ended progress ((t.scene threads).run t moves).division
        ((t.scene threads).run t moves).batch.outcomes := by
    obtain ⟨progress, h⟩ := start.run fair moves
    exact ⟨progress, h.ended crew finished⟩
  refine ⟨fun moves => Scene.exists_run t (t.scene threads) moves, ⟨?_, ?_⟩, ?_⟩
  · rintro ⟨moves, finished⟩
    obtain ⟨progress, ended⟩ := ended finished
    exact fair.standing.exists_inTurn fair ended.returning fun _ _ => rfl
  · rintro ⟨outcomes, d, inTurn⟩
    obtain ⟨progress, ended⟩ := inTurn.ended fair
    obtain ⟨N, finishes⟩ := start.isFinished fair ended.returning
    exact (Scene.exists_turns N threads.length).imp finishes
  · intro outcomes d inTurn
    obtain ⟨progress, ended'⟩ := inTurn.ended fair
    refine ⟨ended'.standing.covers, start.isFinished fair ended'.returning,
      fun moves finished => ?_⟩
    obtain ⟨progress', ended⟩ := ended finished
    obtain ⟨outcomes, agree⟩ := ended.unique ended'
    exact ⟨outcomes, agree, ended.standing.covers⟩

/-- Capabilities enlist a participant each and succeed. The second participant is to refuse. -/
def attend (p : Nat) (l : World) : World.Action :=
  match l.need (.operation 0) with
  | .work _ _ =>
    if l.transactions.all fun t => t.enlistments.isEmpty then .enlist 0 p
    else .answer (.operation 0) (.response (.data ()))
  | .prepare _ _ => .answer (.operation 0) (.vote (if p = 0 then .prepared else .refused "full"))
  | .tell _ _ _ => .answer (.operation 0) .done
  | _ => .turn (.operation 0)

/-- A leaf under a root, and another root, under one registry. -/
def twins : Task where
  managers := [.registry []]
  past := [.openUnit ⟨"a", "first", none, 0, 0, .default⟩,
    .openUnit ⟨"leaf", "none", some 0, 0, 0, .default⟩,
    .openUnit ⟨"b", "second", none, 0, 0, .default⟩]
  units := [1, 2]
  home := 3
  conduct := attend

theorem twins_fair : twins.Fair [1, 2] := by
  have settled : ∀ p < 2, ((twins.solo p 4).returned? 0).isSome = true := by decide
  have course : ∀ p < 2, ∀ n ≤ 4, ((twins.solo p n).returned? 0 = none →
      (twins.conduct p (twins.solo p n)).isLocal (twins.solo p n) = true) ∧
        (twins.solo p n).isAwake = true := by decide
  have always (p n : Nat) (lt : p < 2) := forall_solo (P := fun l =>
    (l.returned? 0 = none → (twins.conduct p l).isLocal l = true) ∧ l.isAwake = true)
      (settled p lt) (course p lt) n
  refine ⟨?_, by decide, by decide, by decide, fun p n lt => (always p n lt).1,
    fun p n lt => (always p n lt).2⟩
  intro m live there
  cases m with
  | zero => cases there; rfl
  | succ m => cases there

/-- The two workers step in turns, and time passes. -/
def alternating : List Scene.Move :=
  [.worker 0, .worker 1, .worker 1, .worker 0, .tick 5, .worker 0, .worker 1, .worker 1, .worker 0,
    .worker 1, .worker 0, .worker 1, .worker 0, .worker 1, .worker 1, .worker 0, .worker 1]

/-- A leaf that joins the transaction of its root is committed, and a root is not, since its
participant refuses. So it is at once, and so it is in turn. -/
theorem commits_independent_twins :
    ((twins.scene [1, 2]).run twins alternating).batch.isFinished = true ∧
      ∃ outcomes d, twins.InTurn 0 twins.start outcomes d ∧
        outcomes.map CommitOutcome.isCommitted = [true, false] ∧
          twins.Agree ((twins.scene [1, 2]).run twins alternating).division d := by
  have finished : ((twins.scene [1, 2]).run twins alternating).batch.isFinished = true := by decide
  obtain ⟨-, both, same⟩ := commits_independent twins [1, 2]
    (TransactionOptions.default.withParallelism 2) twins_fair rfl
  obtain ⟨outcomes, d, inTurn⟩ := both.mp ⟨alternating, finished⟩
  obtain ⟨-, -, always⟩ := same outcomes d inTurn
  obtain ⟨rfl, agree, -⟩ := always alternating finished
  exact ⟨finished, _, d, inTurn, by decide, agree⟩

end Task

end NestedWork
