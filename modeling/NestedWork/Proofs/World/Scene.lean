import Mathlib.Algebra.GroupWithZero.Nat
import Mathlib.Algebra.Order.BigOperators.Group.Finset
import NestedWork.Proofs.World.Batch
import NestedWork.Proofs.World.Task

/-!
# Workers on trees that stand side by side

The workers of a batch commit units of different trees. Each of them begins a commit on its own
thread and goes on with it as the state of the tree has it, while the others do the same and time
passes.

## Implementation notes

A scene keeps the shares of the trees beside the batch, for they tell what each tree looks like.
Every move of a scene is one of the batch, or one that anyone may take beside it.

A turn of a worker that has not finished takes something from what there is left to do, so a worker
that gets turns enough comes to an end.
-/

namespace NestedWork

/-- A batch, and the trees on which its workers are at work. -/
structure Scene where
  division : Division
  batch : Batch

namespace Scene

/-- A worker takes its turn, or time passes. -/
inductive Move where
  | worker (k : Nat)
  | tick (nanos : Nat)
deriving DecidableEq

/-- What comes of a move. A worker whose commit has not returned goes on with it, and otherwise it
takes the next step of the batch. -/
def step (t : Task) (s : Scene) : Move → Scene
  | .tick nanos => { s with division := s.division.tick nanos }
  | .worker k =>
    let batch := (Batch.step s.division.world s.batch k).2
    match s.batch.workers[k]? with
    | none => s
    | some x =>
      match x.stage with
      | .claiming | .finished => { s with batch }
      | .claimed p =>
        match s.batch.units[p]? with
        | some u => ⟨s.division.begin p u x.thread, batch⟩
        | none => s
      | .committing p _ c =>
        if (s.division.world.returned? c).isSome then { s with batch }
        else { s with division := s.division.proceed (t.conduct p) t.home p }

/-- What comes of some moves. -/
def run (t : Task) (s : Scene) (moves : List Move) : Scene := moves.foldl (step t) s

end Scene

/-- The workers are about to begin. -/
def Task.scene (t : Task) (threads : List Nat) : Scene :=
  ⟨t.start, Batch.create t.units threads⟩

/-! ## Scenes and batches -/

theorem World.returned?_eq_some {w : World} {c : Nat} {r : Except Violation (Response Unit)} :
    w.returned? c = some r ↔ (w.operations[c]?).map Operation.stage = some (.done (.commit r)) := by
  unfold World.returned?
  split
  next r' done => simp [done]
  next other =>
    constructor
    · rintro ⟨⟩
    · exact fun done => absurd done (other r)

namespace Scene

variable {t : Task} {s s' : Scene} {threads : List Nat} {progress progress' : Nat → Option Nat}
  {k j : Nat} {x y : Worker} {m : Move}

/-- A move of a scene is a move of its batch, or one beside it. -/
theorem exists_perform (t : Task) (s : Scene) (m : Move) : ∃ m', Batch.perform s.division.world
    s.batch m' = ((s.step t m).division.world, (s.step t m).batch) := by
  cases m with
  | tick nanos => exact ⟨.beside (.tick nanos), rfl⟩
  | worker k =>
      cases worker : s.batch.workers[k]? with
      | none => exact ⟨.worker k, by simp [Batch.perform, Batch.step, step, worker]⟩
      | some x =>
          cases here : x.stage with
          | claiming => exact ⟨.worker k, by simp [Batch.perform, Batch.step, step, worker, here]⟩
          | finished => exact ⟨.worker k, by simp [Batch.perform, Batch.step, step, worker, here]⟩
          | claimed p =>
              refine ⟨.worker k, ?_⟩
              cases there : s.batch.units[p]? with
              | none => simp [Batch.perform, Batch.step, step, worker, here, there]
              | some u => simp only [Batch.perform, Batch.step, step, worker, here, there]; rfl
          | committing p id c =>
              cases returned : s.division.world.returned? c with
              | none =>
                  refine ⟨.beside ((t.conduct p (s.division.view t.home p)).rename
                    ((s.division.shares p).naming t.home s.division.world)), ?_⟩
                  simp only [Batch.perform, step, worker, here, returned]
                  rfl
              | some r =>
                  refine ⟨.worker k, ?_⟩
                  have done := World.returned?_eq_some.mp returned
                  simp [Batch.perform, Batch.step, step, worker, here, returned, done]

/-- What happens in a scene happens to its batch in a run. -/
theorem exists_run (t : Task) (s : Scene) (moves : List Move) : ∃ moves', Batch.run s.division.world
    s.batch moves' = ((s.run t moves).division.world, (s.run t moves).batch) := by
  induction moves generalizing s with
  | nil => exact ⟨[], rfl⟩
  | cons m rest ih =>
      obtain ⟨m', first⟩ := exists_perform t s m
      obtain ⟨rest', then'⟩ := ih (s.step t m)
      refine ⟨m' :: rest', ?_⟩
      rw [Batch.run, first]
      exact then'

/-! ## A turn of a worker -/

/-- What a turn of a worker is, with the steps that have been done on each tree. -/
inductive Turn (t : Task) (s : Scene) (k : Nat) (progress : Nat → Option Nat) :
    (Nat → Option Nat) → Scene → Prop
  | idle (still : ∀ x, s.batch.workers[k]? = some x → x.stage = .finished) :
      Turn t s k progress progress s
  | claim {x : Worker} (worker : s.batch.workers[k]? = some x) (here : x.stage = .claiming)
      (more : s.batch.next < s.batch.units.length) :
      Turn t s k progress progress ⟨s.division,
        { s.batch with next := s.batch.next + 1 }.modifyWorker k fun x =>
          { x with stage := .claimed s.batch.next }⟩
  | finish {x : Worker} (worker : s.batch.workers[k]? = some x) (here : x.stage = .claiming)
      (past : s.batch.units.length ≤ s.batch.next) :
      Turn t s k progress progress ⟨s.division,
        { s.batch with next := s.batch.next + 1 }.modifyWorker k fun x =>
          { x with stage := .finished }⟩
  | call {x : Worker} {p u : Nat} {y : UnitOfWork} (worker : s.batch.workers[k]? = some x)
      (here : x.stage = .claimed p) (there : s.batch.units[p]? = some u)
      (unit : s.division.world.units[u]? = some y) (waits : progress p = none) :
      Turn t s k progress (Function.update progress p (some 0)) ⟨s.division.begin p u x.thread,
        s.batch.modifyWorker k fun x =>
          { x with stage := .committing p y.id s.division.world.operations.length }⟩
  | proceed {x : Worker} {p c n : Nat} {id : String} (worker : s.batch.workers[k]? = some x)
      (here : x.stage = .committing p id c) (far : progress p = some n)
      (out : s.division.world.returned? c = none) :
      Turn t s k progress (Function.update progress p (some (n + 1)))
        ⟨s.division.proceed (t.conduct p) t.home p, s.batch⟩
  | collect {x : Worker} {p c : Nat} {id : String} {r : Except Violation (Response Unit)}
      (worker : s.batch.workers[k]? = some x) (here : x.stage = .committing p id c)
      (returned : s.division.world.returned? c = some r) :
      Turn t s k progress progress ⟨s.division, s.batch.modifyWorker k fun x =>
        { x with stage := .claiming, found := x.found ++ [(p, ⟨id, r⟩)] }⟩

end Scene

/-! ## The account of the trees -/

namespace Task

variable {t : Task} {p n m : Nat} {o o' : CommitOutcome}

/-- The identifier of the unit at a position. -/
def id? (t : Task) (p : Nat) : Option String :=
  (t.units[p]?).bind fun u => (t.world.units[u]?).map UnitOfWork.id

/-- The outcome of a position, once so many steps have been done on its tree. -/
structure Yields (t : Task) (p n : Nat) (o : CommitOutcome) : Prop where
  unit : t.id? p = some o.unit
  result : (t.solo p n).returned? 0 = some o.result

namespace Yields

theorem settled (h : t.Yields p n o) : ((t.solo p n).returned? 0).isSome = true := by
  rw [h.result]
  rfl

/-- An outcome stays what it is. -/
theorem later (h : t.Yields p n o) (le : n ≤ m) : t.Yields p m o :=
  ⟨h.unit, by rw [solo_eq_of_le h.settled le, h.result]⟩

/-- A position has one outcome. -/
theorem unique (h : t.Yields p n o) (h' : t.Yields p m o') : o = o' := by
  have unit : o.unit = o'.unit := Option.some.inj (h.unit.symm.trans h'.unit)
  have result : o.result = o'.result := by
    apply Option.some.inj
    rw [← h.result, ← h'.result, solo_eq_of_returned h.settled h'.settled]
  cases o
  cases o'
  congr

end Yields

end Task

/-- A position is taken by one worker. -/
theorem Batch.Accounted.eq_of_taken {w : World} {b : Batch} {done : List Batch.Call}
    {k j p : Nat} {x y : Worker} (h : Batch.Accounted w b done) (worker : b.workers[k]? = some x)
    (other : b.workers[j]? = some y) (mem : p ∈ x.taken) (mem' : p ∈ y.taken) : k = j := by
  have nodup : (b.workers.flatMap Worker.taken).Nodup :=
    h.taken.nodup_iff.mpr List.nodup_range
  have apart := List.pairwise_iff_getElem.mp (List.nodup_flatMap.mp nodup).2
  obtain ⟨lt, rfl⟩ := List.getElem?_eq_some_iff.mp worker
  obtain ⟨lt', rfl⟩ := List.getElem?_eq_some_iff.mp other
  rcases Nat.lt_trichotomy k j with less | same | more
  · exact absurd mem' (apart k j lt lt' less mem)
  · exact same
  · exact absurd mem (apart j k lt' lt more mem')

namespace Scene

variable {t : Task} {s s' : Scene} {d d' : Division} {threads : List Nat}
  {progress progress' : Nat → Option Nat} {k j p : Nat} {x y : Worker} {m : Move}

/-- What a worker has taken, begun and found agrees with what has been done on the trees. -/
structure Attends (t : Task) (progress : Nat → Option Nat) (d : Division) (x : Worker) : Prop where
  claimed : ∀ {p : Nat}, x.stage = .claimed p → progress p = none
  underway : ∀ {p c : Nat} {id : String}, x.stage = .committing p id c →
    (∃ n, progress p = some n) ∧ (d.shares p).operations[0]? = some c ∧ t.id? p = some id
  found : ∀ {p : Nat} {o : CommitOutcome}, (p, o) ∈ x.found →
    ∃ n, progress p = some n ∧ t.Yields p n o

/-- No steps are undone. -/
def Later (progress progress' : Nat → Option Nat) : Prop :=
  ∀ p n : Nat, progress p = some n → ∃ m, n ≤ m ∧ progress' p = some m

theorem Later.refl (progress : Nat → Option Nat) : Later progress progress :=
  fun _ n here => ⟨n, Nat.le_refl n, here⟩

theorem Later.update {n : Nat} (most : ∀ m, progress p = some m → m ≤ n) :
    Later progress (Function.update progress p (some n)) := by
  intro q m here
  by_cases same : q = p
  · subst same
    exact ⟨n, most m here, Function.update_self ..⟩
  · exact ⟨m, Nat.le_refl m, by rw [Function.update_of_ne same, here]⟩

/-- What a worker has begun and found agrees with what has been done, however much more that is. -/
theorem Attends.later (h : Attends t progress d x) (later : Later progress progress')
    (growth : d.Growth d') (claimed : ∀ {p : Nat}, x.stage = .claimed p → progress' p = none) :
    Attends t progress' d' x where
  claimed := claimed
  underway := by
    intro p c id here
    obtain ⟨⟨n, far⟩, first, named⟩ := h.underway here
    obtain ⟨m, -, far'⟩ := later _ _ far
    exact ⟨⟨m, far'⟩, (growth.operations p).getElem? first, named⟩
  found := by
    intro p o mem
    obtain ⟨n, far, yields⟩ := h.found mem
    obtain ⟨m, le, far'⟩ := later _ _ far
    exact ⟨m, far', yields.later le⟩

/-- The workers are on the given threads, and attend to the units of a task. -/
structure Manned (t : Task) (threads : List Nat) (progress : Nat → Option Nat) (s : Scene) :
    Prop where
  standing : t.Standing progress s.division
  account : ∃ done, Batch.Accounted s.division.world s.batch done
  units : s.batch.units = t.units
  threads : s.batch.workers.map Worker.thread = threads
  begun : ∀ {p n : Nat}, progress p = some n → p < s.batch.next ∧ p < t.units.length
  attends : ∀ {k : Nat} {x : Worker}, s.batch.workers[k]? = some x →
    Attends t progress s.division x

namespace Manned

theorem start (fair : t.Fair threads) :
    Manned t threads (fun _ => none) (t.scene threads) where
  standing := fair.standing
  account := ⟨[], Batch.Accounted.create fun u mem =>
    ⟨_, List.getElem?_eq_getElem (fair.known u mem)⟩⟩
  units := rfl
  threads := by simp [Task.scene, Batch.create, Function.comp_def]
  begun := fun {_ _} here => by cases here
  attends := by
    intro k x worker
    obtain ⟨thread, -, rfl⟩ : ∃ thread, threads[k]? = some thread ∧
        (⟨thread, .claiming, []⟩ : Worker) = x := by
      simpa [Task.scene, Batch.create] using worker
    constructor
    · rintro p ⟨⟩
    · rintro p c id ⟨⟩
    · rintro p o ⟨⟩

theorem claimed_lt (h : Manned t threads progress s) (worker : s.batch.workers[k]? = some x)
    (here : x.stage = .claimed p) : p < s.batch.next ∧ p < s.batch.units.length := by
  obtain ⟨done, account⟩ := h.account
  have taken : p ∈ x.taken := by simp [Worker.taken, WorkerStage.position?, here]
  have mem := List.mem_flatMap.mpr ⟨x, List.mem_of_getElem? worker, taken⟩
  have lt := List.mem_range.mp (account.taken.mem_iff.mp mem)
  omega

/-- Every turn of a worker is one of those that it can be. -/
theorem turn (h : Manned t threads progress s) (k : Nat) :
    ∃ progress', Turn t s k progress progress' (s.step t (.worker k)) := by
  obtain ⟨done, account⟩ := h.account
  cases worker : s.batch.workers[k]? with
  | none =>
      refine ⟨progress, ?_⟩
      simp only [step, worker]
      apply Turn.idle
      intro x there
      cases worker.symm.trans there
  | some x =>
      cases here : x.stage with
      | claiming =>
          refine ⟨progress, ?_⟩
          by_cases more : s.batch.next < s.batch.units.length
          · simpa only [step, Batch.step, worker, here, if_pos more] using
              Turn.claim worker here more
          · simpa only [step, Batch.step, worker, here, if_neg more] using
              Turn.finish worker here (Nat.le_of_not_lt more)
      | claimed p =>
          have there := List.getElem?_eq_getElem (h.claimed_lt worker here).2
          obtain ⟨y, unit⟩ := account.known _ (List.mem_of_getElem? there)
          refine ⟨Function.update progress p (some 0), ?_⟩
          simpa only [step, Batch.step, worker, here, there, unit] using
            Turn.call worker here there unit ((h.attends worker).claimed here)
      | committing p id c =>
          obtain ⟨⟨n, far⟩, -⟩ := (h.attends worker).underway here
          cases returned : s.division.world.returned? c with
          | none =>
              refine ⟨Function.update progress p (some (n + 1)), ?_⟩
              simpa [step, worker, here, returned] using Turn.proceed worker here far returned
          | some r =>
              refine ⟨progress, ?_⟩
              have done := World.returned?_eq_some.mp returned
              simpa [step, Batch.step, worker, here, returned, done] using
                Turn.collect worker here returned
      | finished =>
          refine ⟨progress, ?_⟩
          simp only [step, Batch.step, worker, here]
          apply Turn.idle
          intro x' there
          rwa [← Option.some.inj (worker.symm.trans there)]

/-- A worker is changed, and has what it should have after that. -/
theorem modify {f : Worker → Worker} {next : Nat} {d' : Division} (h : Manned t threads progress s)
    (worker : s.batch.workers[k]? = some x) (standing : t.Standing progress' d')
    (account : ∃ done, Batch.Accounted d'.world ({ s.batch with next }.modifyWorker k f) done)
    (growth : s.division.Growth d') (later : Later progress progress')
    (begun : ∀ {p n : Nat}, progress' p = some n → p < next ∧ p < t.units.length)
    (same : ∀ x, (f x).thread = x.thread)
    (others : ∀ {j p : Nat} {y : Worker}, j ≠ k → s.batch.workers[j]? = some y →
      y.stage = .claimed p → progress' p = none)
    (attends : Attends t progress' d' (f x)) :
    Manned t threads progress' ⟨d', { s.batch with next }.modifyWorker k f⟩ where
  standing := standing
  account := account
  units := h.units
  threads := (Batch.map_thread_modifyWorker k same).trans h.threads
  begun := begun
  attends := by
    intro j y after
    by_cases eq : j = k
    · subst eq
      obtain rfl : f x = y := by simpa [Batch.modifyWorker, worker] using after
      exact attends
    · have before : s.batch.workers[j]? = some y := by
        simpa [Batch.modifyWorker, Ne.symm eq] using after
      exact (h.attends before).later later growth (others eq before)

/-- A turn leaves the workers attending to the units. -/
theorem keep (h : Manned t threads progress s) (fair : t.Fair threads)
    (turn : Turn t s k progress progress' s')
    (account : ∃ done, Batch.Accounted s'.division.world s'.batch done) :
    Manned t threads progress' s' := by
  have begun {p n : Nat} (far : progress p = some n) :
      p < s.batch.next + 1 ∧ p < t.units.length :=
    ⟨Nat.lt_succ_of_lt (h.begun far).1, (h.begun far).2⟩
  cases turn with
  | idle => exact h
  | @claim x worker here more =>
      refine h.modify worker h.standing account (.refl _) (.refl _) begun (fun _ => rfl)
        (fun _ before => (h.attends before).claimed) ?_
      constructor
      · rintro p ⟨⟩
        cases far : progress s.batch.next with
        | none => rfl
        | some n => exact absurd (h.begun far).1 (Nat.lt_irrefl _)
      · rintro p c id ⟨⟩
      · exact (h.attends worker).found
  | @finish x worker here past =>
      refine h.modify worker h.standing account (.refl _) (.refl _) begun (fun _ => rfl)
        (fun _ before => (h.attends before).claimed) ?_
      constructor
      · rintro p ⟨⟩
      · rintro p c id ⟨⟩
      · exact (h.attends worker).found
  | @call x p u y worker here there unit waits =>
      have allowed : x.thread = t.home ∨ x.thread ∈ threads := by
        rw [← h.threads]
        exact .inr (List.mem_map_of_mem (List.mem_of_getElem? worker))
      have seat : t.units[p]? = some u := by rw [← h.units, there]
      have touches := h.standing.begin fair waits seat allowed
      have later : Later progress (Function.update progress p (some 0)) :=
        .update fun m far => by cases waits.symm.trans far
      refine h.modify worker (h.standing.touch touches) account touches.growth later ?_
        (fun _ => rfl) ?_ ?_
      · intro q n far
        by_cases same : q = p
        · subst same
          exact ⟨(h.claimed_lt worker here).1, (List.getElem?_eq_some_iff.mp seat).1⟩
        · exact h.begun (by rwa [Function.update_of_ne same] at far)
      · intro j q y' ne before claimed
        -- no two workers have taken one position, so the other one still waits to be begun
        have other : q ≠ p := by
          rintro rfl
          obtain ⟨done, account⟩ := h.account
          refine ne (account.eq_of_taken before worker (p := q) ?_ ?_)
          · simp [Worker.taken, WorkerStage.position?, claimed]
          · simp [Worker.taken, WorkerStage.position?, here]
        rw [Function.update_of_ne other]
        exact (h.attends before).claimed claimed
      · constructor
        · rintro q ⟨⟩
        · rintro q c id ⟨⟩
          refine ⟨⟨0, Function.update_self ..⟩, h.standing.operations_begin fair waits seat _, ?_⟩
          have named := h.standing.id_eq fair waits seat
          rw [unit] at named
          rw [Task.id?, seat, Option.bind_some, ← named, Option.map_some]
        · intro q o mem
          obtain ⟨n, far, yields⟩ := (h.attends worker).found mem
          obtain ⟨m, le, far'⟩ := later _ _ far
          exact ⟨m, far', yields.later le⟩
  | @proceed x p c n id worker here far out =>
      have lt := (h.begun far).2
      have first := ((h.attends worker).underway here).2.1
      have out' : (t.solo p n).returned? 0 = none := by
        rw [← h.standing.returned? fair far first, out]
      have touches := h.standing.proceed fair far lt out'
      have later : Later progress (Function.update progress p (some (n + 1))) :=
        .update fun m far' => by
          rw [far] at far'
          exact Option.some.inj far' ▸ Nat.le_succ n
      refine ⟨h.standing.touch touches, account, h.units, h.threads, ?_, ?_⟩
      · intro q m far'
        by_cases same : q = p
        · subst same
          exact h.begun far
        · exact h.begun (by rwa [Function.update_of_ne same] at far')
      · intro j y before
        refine (h.attends before).later later touches.growth fun {q} claimed => ?_
        have waits := (h.attends before).claimed claimed
        have other : q ≠ p := by
          rintro rfl
          cases waits.symm.trans far
        rw [Function.update_of_ne other, waits]
  | @collect x p c id r worker here returned =>
      obtain ⟨⟨n, far⟩, first, named⟩ := (h.attends worker).underway here
      refine h.modify worker h.standing account (.refl _) (.refl _) h.begun (fun _ => rfl)
        (fun _ before => (h.attends before).claimed) ?_
      constructor
      · rintro q ⟨⟩
      · rintro q c id ⟨⟩
      · intro q o mem
        rcases List.mem_append.mp mem with old | new
        · exact (h.attends worker).found old
        · obtain ⟨rfl, rfl⟩ : q = p ∧ o = ⟨id, r⟩ := by simpa using new
          exact ⟨n, far, named, by rw [← h.standing.returned? fair far first, returned]⟩

theorem account_step (h : Manned t threads progress s) (m : Move) :
    ∃ done, Batch.Accounted (s.step t m).division.world (s.step t m).batch done := by
  obtain ⟨done, account⟩ := h.account
  obtain ⟨past, reached⟩ := h.standing.proper.run
  have reachable : World.Reachable t.managers s.division.world := by
    rw [reached]
    exact World.reachable_run t.managers past
  obtain ⟨m', perform⟩ := exists_perform t s m
  have next := (account.run reachable [m']).1
  have run : Batch.run s.division.world s.batch [m'] =
      ((s.step t m).division.world, (s.step t m).batch) := perform
  rw [run] at next
  exact ⟨_, next⟩

theorem tick (h : Manned t threads progress s) (nanos : Nat) :
    Manned t threads progress (s.step t (.tick nanos)) where
  standing := h.standing.tick nanos
  account := h.account_step (.tick nanos)
  units := h.units
  threads := h.threads
  begun := h.begun
  attends := fun worker => (h.attends worker).later (.refl _) ((Division.Growth.refl _).tick nanos)
    (h.attends worker).claimed

end Manned

end Scene

/-! ## What is left to do -/

/-- The turns that a worker takes until it claims the next position or finishes, but for those in
which it goes on with a commit. -/
def WorkerStage.effort : WorkerStage → Nat
  | .claimed _ => 3
  | .committing _ _ _ => 2
  | .claiming => 1
  | .finished => 0

/-- The turns that some workers take until then. -/
def Batch.effortOf (workers : List Worker) : Nat := (workers.map fun x => x.stage.effort).sum

theorem Batch.effortOf_modify {f : Worker → Worker} {workers : List Worker} {k : Nat} {x : Worker}
    (worker : workers[k]? = some x) :
    effortOf (workers.modify k f) + x.stage.effort = effortOf workers + (f x).stage.effort := by
  induction workers generalizing k with
  | nil => cases worker
  | cons y rest ih =>
      cases k with
      | zero =>
          obtain rfl := Option.some.inj worker
          simp only [effortOf, List.modify_zero_cons, List.map_cons, List.sum_cons]
          omega
      | succ k =>
          have later := ih worker
          simp only [effortOf, List.modify_succ_cons, List.map_cons, List.sum_cons] at later ⊢
          omega

/-- The turns that are left to the workers of a batch, if the commits end after a number of steps
each. -/
def Batch.effort (ends : Nat → Nat) (progress : Nat → Option Nat) (b : Batch) : Nat :=
  3 * (b.units.length - b.next) + effortOf b.workers +
    ∑ p ∈ Finset.range b.units.length, (ends p - (progress p).getD 0)

/-- A worker that is changed takes from what is left, if its stage takes more than it may need for
positions to come. -/
theorem Batch.effort_modifyWorker_lt {b : Batch} {k : Nat} {x : Worker} {f : Worker → Worker}
    {progress progress' : Nat → Option Nat} (ends : Nat → Nat) (next : Nat)
    (worker : b.workers[k]? = some x) (same : ∀ q, (progress' q).getD 0 = (progress q).getD 0)
    (less : 3 * (b.units.length - next) + (f x).stage.effort <
      3 * (b.units.length - b.next) + x.stage.effort) :
    ({ b with next }.modifyWorker k f).effort ends progress' < b.effort ends progress := by
  have rest := Batch.effortOf_modify (f := f) worker
  simp only [Batch.effort, Batch.modifyWorker, same]
  omega

namespace Scene

variable {t : Task} {s s' : Scene} {threads : List Nat} {progress progress' : Nat → Option Nat}
  {ends : Nat → Nat} {k j : Nat} {x y : Worker}

/-- A worker does something in its turn, unless it has finished. -/
theorem Turn.effort_lt_or (h : Manned t threads progress s) (fair : t.Fair threads)
    (ended : ∀ p < t.units.length, ((t.solo p (ends p)).returned? 0).isSome = true)
    (turn : Turn t s k progress progress' s') :
    s'.batch.effort ends progress' < s.batch.effort ends progress ∨
      (∀ x, s.batch.workers[k]? = some x → x.stage = .finished) ∧
        progress' = progress ∧ s' = s := by
  cases turn with
  | idle still => exact .inr ⟨still, rfl, rfl⟩
  | @claim x worker here more =>
      left
      apply Batch.effort_modifyWorker_lt ends (s.batch.next + 1) worker fun _ => rfl
      simp only [here, WorkerStage.effort]
      omega
  | @finish x worker here past =>
      left
      apply Batch.effort_modifyWorker_lt ends (s.batch.next + 1) worker fun _ => rfl
      simp only [here, WorkerStage.effort]
      omega
  | @call x p u y worker here there unit waits =>
      left
      apply Batch.effort_modifyWorker_lt ends s.batch.next worker
      · intro q
        by_cases eq : q = p
        · subst eq
          rw [Function.update_self, waits]
          rfl
        · rw [Function.update_of_ne eq]
      · simp only [here, WorkerStage.effort]
        omega
  | @proceed x p c n id worker here far out =>
      left
      have lt := (h.begun far).2
      have first := ((h.attends worker).underway here).2.1
      -- after `ends p` steps the commit would have returned
      have early : n < ends p := by
        refine Nat.lt_of_not_le fun le => ?_
        have settled := ended p lt
        rw [← Task.solo_eq_of_le settled le, ← h.standing.returned? fair far first, out] at settled
        cases settled
      refine Nat.add_lt_add_left (Finset.sum_lt_sum (fun q _ => ?_) ⟨p, ?_, ?_⟩) _
      · by_cases eq : q = p
        · subst eq
          rw [Function.update_self, far]
          exact Nat.sub_le_sub_left (Nat.le_succ n) _
        · rw [Function.update_of_ne eq]
      · rwa [Finset.mem_range, h.units]
      · rw [Function.update_self, far]
        exact Nat.sub_lt_sub_left early (Nat.lt_succ_self n)
  | @collect x p c id r worker here returned =>
      left
      apply Batch.effort_modifyWorker_lt ends s.batch.next worker fun _ => rfl
      simp only [here, WorkerStage.effort]
      omega

/-- A worker that has finished does nothing more. -/
theorem Turn.unfinished (turn : Turn t s k progress progress' s')
    (after : s'.batch.workers[j]? = some y) (going : y.stage ≠ .finished) :
    ∃ x, s.batch.workers[j]? = some x ∧ x.stage ≠ .finished := by
  cases turn with
  | idle | proceed => exact ⟨y, after, going⟩
  | claim worker here | finish worker here =>
      rcases Batch.back_modifyWorker (b := { s.batch with next := s.batch.next + 1 }) worker after
        with ⟨rfl, -⟩ | before
      · exact ⟨_, worker, by rw [here]; exact nofun⟩
      · exact ⟨y, before, going⟩
  | call worker here | collect worker here =>
      rcases Batch.back_modifyWorker worker after with ⟨rfl, -⟩ | before
      · exact ⟨_, worker, by rw [here]; exact nofun⟩
      · exact ⟨y, before, going⟩

/-! ## Whole schedules -/

namespace Manned

/-- In the course of any schedule the workers attend to the units. -/
theorem run (h : Manned t threads progress s) (fair : t.Fair threads) (moves : List Move) :
    ∃ progress', Manned t threads progress' (s.run t moves) := by
  induction moves generalizing s progress with
  | nil => exact ⟨progress, h⟩
  | cons m rest ih =>
      cases m with
      | tick nanos => exact ih (h.tick nanos)
      | worker k =>
          obtain ⟨progress', turn⟩ := h.turn k
          exact ih (h.keep fair turn (h.account_step _))

/-- A worker that has not finished has taken no more turns than there were left. -/
theorem count_le (h : Manned t threads progress s) (fair : t.Fair threads)
    (ended : ∀ p < t.units.length, ((t.solo p (ends p)).returned? 0).isSome = true)
    (moves : List Move) (after : (s.run t moves).batch.workers[k]? = some y)
    (going : y.stage ≠ .finished) :
    (∃ x, s.batch.workers[k]? = some x ∧ x.stage ≠ .finished) ∧
      moves.count (.worker k) ≤ s.batch.effort ends progress := by
  induction moves generalizing s progress with
  | nil => exact ⟨⟨y, after, going⟩, Nat.zero_le _⟩
  | cons m rest ih =>
      cases m with
      | tick nanos =>
          have later := ih (h.tick nanos) after
          rwa [List.count_cons_of_ne (by simp)]
      | worker j =>
          -- whoever has not finished in the end had not finished before this turn either
          obtain ⟨progress', turn⟩ := h.turn j
          obtain ⟨⟨x, there, unfinished⟩, le⟩ := ih (h.keep fair turn (h.account_step _)) after
          obtain ⟨x', before, unfinished'⟩ := turn.unfinished there unfinished
          refine ⟨⟨x', before, unfinished'⟩, ?_⟩
          rcases turn.effort_lt_or h fair ended with less | ⟨still, rfl, same⟩
          · have more := List.count_cons (a := Move.worker k) (b := .worker j) (l := rest)
            split at more <;> omega
          · have other : j ≠ k := by
              rintro rfl
              exact unfinished' (still x' before)
            rw [List.count_cons_of_ne (by simpa using other)]
            rwa [same] at le

end Manned

end Scene

end NestedWork
