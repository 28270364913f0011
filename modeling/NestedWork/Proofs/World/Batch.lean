import NestedWork.Proofs.World.Outcome
import NestedWork.World.Batch

/-!
# What a batch commits

The workers of a batch call one commit for every position of its list, whatever their order and
whatever goes on beside them, and the outcomes tell what those commits have returned.

## Implementation notes

A step of a worker is taken apart once, into the five things that it can be. All that is said of a
batch is one account of the positions: which are taken, for which a commit has been called, and what
has come of it.

A commit that a worker calls is told from the world: it is an operation that has begun in a step of
the worker.
-/

namespace NestedWork

/-! ## The order of the positions -/

section Sorting

variable {α : Type} {entries : List (Nat × α)}

theorem insertByPosition_perm (e : Nat × α) (entries : List (Nat × α)) :
    (insertByPosition e entries).Perm (e :: entries) := by
  fun_induction insertByPosition e entries with
  | case1 | case2 => rfl
  | case3 e' rest _ ih => exact (ih.cons e').trans (.swap e e' rest)

theorem pairwise_insertByPosition (e : Nat × α) (sorted : entries.Pairwise (·.1 ≤ ·.1)) :
    (insertByPosition e entries).Pairwise (·.1 ≤ ·.1) := by
  fun_induction insertByPosition e entries with
  | case1 => exact List.pairwise_singleton _ _
  | case2 e' rest lt =>
      refine List.pairwise_cons.mpr ⟨fun d mem => ?_, sorted⟩
      rcases List.mem_cons.mp mem with rfl | later
      · exact Nat.le_of_lt lt
      · exact (Nat.le_of_lt lt).trans ((List.pairwise_cons.mp sorted).1 d later)
  | case3 e' rest ge ih =>
      obtain ⟨first, sorted⟩ := List.pairwise_cons.mp sorted
      refine List.pairwise_cons.mpr ⟨fun d mem => ?_, ih sorted⟩
      rcases List.mem_cons.mp ((insertByPosition_perm e rest).mem_iff.mp mem) with rfl | later
      · exact Nat.le_of_not_lt ge
      · exact first d later

theorem sortByPosition_perm (entries : List (Nat × α)) :
    (sortByPosition entries).Perm entries := by
  induction entries with
  | nil => rfl
  | cons e rest ih => exact (insertByPosition_perm e _).trans (ih.cons e)

theorem pairwise_sortByPosition (entries : List (Nat × α)) :
    (sortByPosition entries).Pairwise (·.1 ≤ ·.1) := by
  induction entries with
  | nil => exact .nil
  | cons e rest ih => exact pairwise_insertByPosition e ih

/-- Entries for all positions of a list are sorted so that each stands at its own. -/
theorem map_fst_sortByPosition {n : Nat}
    (all : (entries.map Prod.fst).Perm (List.range n)) :
    (sortByPosition entries).map Prod.fst = List.range n := by
  have perm : ((sortByPosition entries).map Prod.fst).Perm (List.range n) :=
    ((sortByPosition_perm entries).map _).trans all
  refine perm.eq_of_pairwise (fun _ _ _ _ => Nat.le_antisymm) ?_
    (List.pairwise_lt_range.imp Nat.le_of_lt)
  exact List.pairwise_map.mpr (pairwise_sortByPosition entries)

end Sorting

namespace WorkerStage

/-- The position that a worker has taken and not dealt with. -/
def position? : WorkerStage → Option Nat
  | claimed p | committing p _ _ => some p
  | claiming | finished => none

/-- The position that a worker commits. -/
def called? : WorkerStage → Option Nat
  | committing p _ _ => some p
  | _ => none

end WorkerStage

namespace Worker

/-- The positions that a worker has taken. -/
def taken (x : Worker) : List Nat := x.found.map Prod.fst ++ x.stage.position?.toList

/-- The positions for which a worker has called a commit. -/
def called (x : Worker) : List Nat := x.found.map Prod.fst ++ x.stage.called?.toList

end Worker

namespace Batch

variable {w w' : World} {b : Batch} {k j p c : Nat} {x y : Worker} {f : Worker → Worker}

/-! ## Runs -/

/-- A step of a worker, or of anyone else. -/
inductive Move where
  | beside (a : World.Action)
  | worker (k : Nat)

/-- The world and the batch after a move. -/
def perform (w : World) (b : Batch) : Move → World × Batch
  | .beside a => (w.perform a, b)
  | .worker k => step w b k

/-- The world and the batch after some moves. -/
def run (w : World) (b : Batch) : List Move → World × Batch
  | [] => (w, b)
  | m :: rest => run (perform w b m).1 (perform w b m).2 rest

/-- A commit that a worker has called, for the position that it has taken then. -/
structure Call where
  worker : Nat
  position : Option Nat
  operation : Nat
deriving DecidableEq

/-- The commits that are called by a move: the operations that a worker begins. -/
def callsBy (w : World) (b : Batch) : Move → List Call
  | .beside _ => []
  | .worker k =>
    (List.range' w.operations.length
      ((step w b k).1.operations.length - w.operations.length)).map fun c =>
        ⟨k, (b.workers[k]?).bind fun x => x.stage.position?, c⟩

/-- The commits that are called by some moves, in order. -/
def calls (w : World) (b : Batch) : List Move → List Call
  | [] => []
  | m :: rest => callsBy w b m ++ calls (perform w b m).1 (perform w b m).2 rest

/-! ## A step of a worker -/

/-- What a step of a worker is, with the commits that it calls. -/
inductive Stepped (w : World) (b : Batch) (k : Nat) : World → Batch → List Call → Prop
  | idle : Stepped w b k w b []
  | claim {x : Worker} (worker : b.workers[k]? = some x) (here : x.stage = .claiming)
      (more : b.next < b.units.length) :
      Stepped w b k w
        ({ b with next := b.next + 1 }.modifyWorker k fun x => { x with stage := .claimed b.next })
        []
  | finish {x : Worker} (worker : b.workers[k]? = some x) (here : x.stage = .claiming)
      (past : b.units.length ≤ b.next) :
      Stepped w b k w
        ({ b with next := b.next + 1 }.modifyWorker k fun x => { x with stage := .finished }) []
  | call {x : Worker} {p u : Nat} {y : UnitOfWork} (worker : b.workers[k]? = some x)
      (here : x.stage = .claimed p) (there : b.units[p]? = some u) (unit : w.units[u]? = some y) :
      Stepped w b k (w.perform (.commit u x.thread))
        (b.modifyWorker k fun x => { x with stage := .committing p y.id w.operations.length })
        [⟨k, some p, w.operations.length⟩]
  | collect {x : Worker} {p c : Nat} {id : String} {o : Operation}
      {result : Except Violation (Response Unit)} (worker : b.workers[k]? = some x)
      (here : x.stage = .committing p id c) (running : w.operations[c]? = some o)
      (returned : o.stage = .done (.commit result)) :
      Stepped w b k w
        (b.modifyWorker k fun x =>
          { x with stage := .claiming, found := x.found ++ [(p, ⟨id, result⟩)] }) []

/-- A step that leaves the world alone calls nothing. -/
theorem callsBy_of_eq (same : (step w b k).1 = w) : callsBy w b (.worker k) = [] := by
  simp [callsBy, same]

theorem stepped (known : ∀ u ∈ b.units, ∃ y, w.units[u]? = some y) (k : Nat) :
    Stepped w b k (step w b k).1 (step w b k).2 (callsBy w b (.worker k)) := by
  have still {b' : Batch} (eq : step w b k = (w, b')) (stepped : Stepped w b k w b' []) :
      Stepped w b k (step w b k).1 (step w b k).2 (callsBy w b (.worker k)) := by
    have world : (step w b k).1 = w := by rw [eq]
    rw [callsBy_of_eq world, eq]
    exact stepped
  cases worker : b.workers[k]? with
  | none => exact still (by simp only [step, worker]) .idle
  | some x =>
      cases here : x.stage with
      | claiming =>
          by_cases more : b.next < b.units.length
          · exact still (by simp only [step, worker, here, if_pos more]) (.claim worker here more)
          · exact still (by simp only [step, worker, here, if_neg more])
              (.finish worker here (Nat.le_of_not_lt more))
      | claimed p =>
          cases there : b.units[p]? with
          | none => exact still (by simp only [step, worker, here, there]) .idle
          | some u =>
              obtain ⟨y, unit⟩ := known u (List.mem_of_getElem? there)
              have eq : step w b k = (w.perform (.commit u x.thread), b.modifyWorker k fun x =>
                  { x with stage := .committing p y.id w.operations.length }) := by
                simp only [step, worker, here, there, unit]
                rfl
              obtain ⟨s, begun⟩ := World.operations_beginCommit unit x.thread
              have one : callsBy w b (.worker k) = [⟨k, some p, w.operations.length⟩] := by
                simp [callsBy, eq, World.perform, begun, worker, here, WorkerStage.position?]
              rw [eq, one]
              exact .call worker here there unit
      | committing p id c =>
          cases running : w.operations[c]? with
          | none => exact still (by simp only [step, worker, here, running, Option.map_none]) .idle
          | some o =>
              cases returned : o.stage with
              | done answer =>
                  cases answer with
                  | commit result =>
                      exact still (by
                        simp only [step, worker, here, running, Option.map_some, returned])
                        (.collect worker here running returned)
                  | returned =>
                      exact still (by
                        simp only [step, worker, here, running, Option.map_some, returned]) .idle
              | _ =>
                  exact still (by
                    simp only [step, worker, here, running, Option.map_some, returned]) .idle
      | finished => exact still (by simp only [step, worker, here]) .idle

/-! ## The account of the positions -/

theorem back_modifyWorker (worker : b.workers[k]? = some x)
    (after : (b.modifyWorker k f).workers[j]? = some y) :
    j = k ∧ y = f x ∨ b.workers[j]? = some y := by
  by_cases same : k = j
  · subst same
    left
    simpa [modifyWorker, worker, eq_comm] using after
  · right
    simpa [modifyWorker, same] using after

/-- If one element of a list yields more, so does the list. -/
theorem flatMap_modify_perm {α β : Type} {g : α → List β} {f : α → α} {x : α} {more : List β}
    {xs : List α} {k : Nat} (there : xs[k]? = some x) (yields : (g (f x)).Perm (g x ++ more)) :
    ((xs.modify k f).flatMap g).Perm (xs.flatMap g ++ more) := by
  induction xs generalizing k with
  | nil => cases there
  | cons y xs ih =>
      cases k with
      | zero =>
          obtain rfl := Option.some.inj there
          simp only [List.modify_zero_cons, List.flatMap_cons]
          calc (g (f y) ++ xs.flatMap g).Perm (g y ++ more ++ xs.flatMap g) := yields.append_right _
            List.Perm _ (g y ++ (more ++ xs.flatMap g)) := by rw [List.append_assoc]
            List.Perm _ (g y ++ (xs.flatMap g ++ more)) := List.perm_append_comm.append_left _
            List.Perm _ (g y ++ xs.flatMap g ++ more) := by rw [List.append_assoc]
      | succ k =>
          simp only [List.modify_succ_cons, List.flatMap_cons, List.append_assoc]
          exact (ih there).append_left _

/-- A worker has called a commit for a position: which operation that is, whose unit is there, and
how far it has come. -/
structure Serves (w : World) (units : List Nat) (done : List Call) (k thread p c : Nat)
    (id : String) (s : Stage) : Prop where
  mem : ⟨k, some p, c⟩ ∈ done
  unit : ∃ u y, units[p]? = some u ∧ w.units[u]? = some y ∧ y.id = id ∧
    w.operations[c]? = some ⟨u, thread, s⟩

theorem Serves.later {units : List Nat} {done done' : List Call} {thread : Nat} {id : String}
    {s : Stage} (h : Serves w units done k thread p c id s) (endures : w.Endures w')
    (more : done ⊆ done') :
    ∃ s', Serves w' units done' k thread p c id s' ∧ ∀ answer, s = .done answer → s' = s := by
  obtain ⟨u, y, there, unit, named, running⟩ := h.unit
  obtain ⟨y', unit', same⟩ := endures.unit unit
  obtain ⟨s', running', still⟩ := endures.operation running
  exact ⟨s', ⟨more h.mem, u, y', there, unit', same.trans named, running'⟩, still⟩

/-- The commits that have been called account for the positions that the workers have taken, and for
the outcomes that they have found. -/
structure Accounted (w : World) (b : Batch) (done : List Call) : Prop where
  known : ∀ u ∈ b.units, ∃ y, w.units[u]? = some y
  taken : (b.workers.flatMap Worker.taken).Perm (List.range (min b.next b.units.length))
  called : (done.map Call.position).Perm ((b.workers.flatMap Worker.called).map some)
  finished : ∀ {k : Nat} {x : Worker}, b.workers[k]? = some x → x.stage = .finished →
    b.units.length ≤ b.next
  waits : ∀ {k p c : Nat} {x : Worker} {id : String}, b.workers[k]? = some x →
    x.stage = .committing p id c → ∃ s, Serves w b.units done k x.thread p c id s
  found : ∀ {k p : Nat} {x : Worker} {o : CommitOutcome}, b.workers[k]? = some x →
    (p, o) ∈ x.found →
      ∃ c, Serves w b.units done k x.thread p c o.unit (.done (.commit o.result))
  begun : ∀ call ∈ done, call.operation < w.operations.length
  distinct : (done.map Call.operation).Nodup

namespace Accounted

variable {done new : List Call}

theorem create {units threads : List Nat} (known : ∀ u ∈ units, ∃ y, w.units[u]? = some y) :
    Accounted w (Batch.create units threads) [] := by
  have fresh {k : Nat} {x : Worker} (worker : (Batch.create units threads).workers[k]? = some x) :
      x.stage = .claiming ∧ x.found = [] := by
    obtain ⟨thread, -, rfl⟩ : ∃ thread, threads[k]? = some thread ∧
        (⟨thread, .claiming, []⟩ : Worker) = x := by
      simpa [Batch.create] using worker
    exact ⟨rfl, rfl⟩
  have none {g : Worker → List Nat} (nothing : ∀ thread, g ⟨thread, .claiming, []⟩ = []) :
      (Batch.create units threads).workers.flatMap g = [] := by
    simp [Batch.create, nothing]
  constructor
  · exact known
  · rw [none fun _ => rfl]
    simp [Batch.create]
  · rw [none fun _ => rfl]
    rfl
  · intro k x worker here
    cases (fresh worker).1.symm.trans here
  · intro k p c x id worker here
    cases (fresh worker).1.symm.trans here
  · intro k p x o worker mem
    rw [(fresh worker).2] at mem
    cases mem
  · simp
  · exact List.nodup_nil

/-- An outcome that has been found is there for good. -/
theorem served (h : Accounted w b done) (worker : b.workers[k]? = some x) {o : CommitOutcome}
    (mem : (p, o) ∈ x.found) (endures : w.Endures w') {done' : List Call} (more : done ⊆ done') :
    ∃ c, Serves w' b.units done' k x.thread p c o.unit (.done (.commit o.result)) := by
  obtain ⟨c, serves⟩ := h.found worker mem
  obtain ⟨s', serves', still⟩ := serves.later endures more
  exact ⟨c, still _ rfl ▸ serves'⟩

/-- Whatever goes on beside the workers keeps the account. -/
theorem beside (h : Accounted w b done) (endures : w.Endures w') : Accounted w' b done where
  known := by
    intro u mem
    obtain ⟨y, unit⟩ := h.known u mem
    exact (endures.unit unit).imp fun _ => And.left
  taken := h.taken
  called := h.called
  finished := h.finished
  waits := by
    intro k p c x id worker here
    obtain ⟨s, serves⟩ := h.waits worker here
    exact (serves.later endures (List.Subset.refl _)).imp fun _ => And.left
  found := fun worker mem => h.served worker mem endures (List.Subset.refl _)
  begun := fun call mem => Nat.lt_of_lt_of_le (h.begun call mem) endures.length_le
  distinct := h.distinct

/-- A worker goes on: it may take a position, call a commit, or put an outcome to those that it has
found. -/
theorem worker {next : Nat} (h : Accounted w b done) (start asked : List Nat)
    (worker : b.workers[k]? = some x) (endures : w.Endures w') (later : b.next ≤ next)
    (range : List.range (min next b.units.length) =
      List.range (min b.next b.units.length) ++ start)
    (taken : (f x).taken = x.taken ++ start) (called : (f x).called = x.called ++ asked)
    (positions : new.map Call.position = asked.map some)
    (finished : (f x).stage = .finished → b.units.length ≤ next)
    (waits : ∀ {p c : Nat} {id : String}, (f x).stage = .committing p id c →
      ∃ s, Serves w' b.units (done ++ new) k (f x).thread p c id s)
    (found : ∀ {p : Nat} {o : CommitOutcome}, (p, o) ∈ (f x).found →
      ∃ c, Serves w' b.units (done ++ new) k (f x).thread p c o.unit (.done (.commit o.result)))
    (begun : ∀ call ∈ new, w.operations.length ≤ call.operation ∧
      call.operation < w'.operations.length)
    (distinct : (new.map Call.operation).Nodup) :
    Accounted w' ({ b with next }.modifyWorker k f) (done ++ new) where
  known := (h.beside endures).known
  taken :=
    calc (b.workers.modify k f).flatMap Worker.taken
      List.Perm _ (b.workers.flatMap Worker.taken ++ start) :=
        flatMap_modify_perm worker (.of_eq taken)
      List.Perm _ (List.range (min b.next b.units.length) ++ start) := h.taken.append_right _
      _ = List.range (min next b.units.length) := range.symm
  called :=
    calc (done ++ new).map Call.position
      _ = done.map Call.position ++ asked.map some := by rw [List.map_append, positions]
      List.Perm _ ((b.workers.flatMap Worker.called).map some ++ asked.map some) :=
        h.called.append_right _
      _ = (b.workers.flatMap Worker.called ++ asked).map some := List.map_append.symm
      List.Perm _ (((b.workers.modify k f).flatMap Worker.called).map some) :=
        (flatMap_modify_perm worker (.of_eq called)).symm.map _
  finished := by
    intro j y after here
    rcases back_modifyWorker (b := { b with next }) worker after with ⟨-, rfl⟩ | before
    · exact finished here
    · exact (h.finished before here).trans later
  waits := by
    intro j p c y id after here
    rcases back_modifyWorker (b := { b with next }) worker after with ⟨rfl, rfl⟩ | before
    · exact waits here
    · obtain ⟨s, serves⟩ := h.waits before here
      exact (serves.later endures (List.subset_append_left _ _)).imp fun _ => And.left
  found := by
    intro j p y o after mem
    rcases back_modifyWorker (b := { b with next }) worker after with ⟨rfl, rfl⟩ | before
    · exact found mem
    · exact h.served before mem endures (List.subset_append_left _ _)
  begun := by
    intro call mem
    rcases List.mem_append.mp mem with old | fresh
    · exact Nat.lt_of_lt_of_le (h.begun call old) endures.length_le
    · exact (begun call fresh).2
  distinct := by
    rw [List.map_append]
    refine List.nodup_append.mpr ⟨h.distinct, distinct, ?_⟩
    rintro _ old _ fresh rfl
    obtain ⟨call, mem, rfl⟩ := List.mem_map.mp old
    obtain ⟨call', mem', eq⟩ := List.mem_map.mp fresh
    have lt := h.begun call mem
    have le := (begun call' mem').1
    omega

/-- Every step of a worker keeps the account. -/
theorem step (h : Accounted w b done) (order : w.Orderly) {b' : Batch}
    (stepped : Stepped w b k w' b' new) : Accounted w' b' (done ++ new) := by
  have more (new : List Call) : done ⊆ done ++ new := List.subset_append_left _ _
  cases stepped with
  | idle => simpa using h
  | @claim x there here left =>
      refine h.worker [b.next] [] there (.refl w) (Nat.le_succ _) ?_ ?_ ?_ rfl
        ?_ ?_ (h.served there · (.refl w) (more _)) ?_ List.nodup_nil
      · rw [Nat.min_eq_left left, Nat.min_eq_left (Nat.le_of_lt left), List.range_succ]
      · simp [Worker.taken, WorkerStage.position?, here]
      · simp [Worker.called, WorkerStage.called?, here]
      · rintro ⟨⟩
      · rintro p c id ⟨⟩
      · simp
  | @finish x there here past =>
      refine h.worker [] [] there (.refl w) (Nat.le_succ _) ?_ ?_ ?_ rfl
        (fun _ => past.trans (Nat.le_succ _)) ?_ (h.served there · (.refl w) (more _)) ?_
        List.nodup_nil
      · rw [Nat.min_eq_right past, Nat.min_eq_right (past.trans (Nat.le_succ _)), List.append_nil]
      · simp [Worker.taken, WorkerStage.position?, here]
      · simp [Worker.called, WorkerStage.called?, here]
      · rintro p c id ⟨⟩
      · simp
  | @call x p u y there here seat unit =>
      have endures := World.endures_perform order (.commit u x.thread)
      obtain ⟨s, begins⟩ := World.operations_beginCommit unit x.thread
      refine h.worker [] [p] there endures (Nat.le_refl _) ?_ ?_ ?_ rfl ?_ ?_
        (h.served there · endures (more _)) ?_ (List.nodup_singleton _)
      · rw [List.append_nil]
      · simp [Worker.taken, WorkerStage.position?, here]
      · simp [Worker.called, WorkerStage.called?, here]
      · rintro ⟨⟩
      · rintro p c id ⟨⟩
        obtain ⟨y', unit', same⟩ := endures.unit unit
        refine ⟨s, by simp, u, y', seat, unit', same, ?_⟩
        rw [World.perform, begins, List.getElem?_concat_length]
      · simp [World.perform, begins]
  | @collect x p c id o result there here running returned =>
      refine h.worker [] [] there (.refl w) (Nat.le_refl _) ?_ ?_ ?_ rfl ?_ ?_
        ?_ ?_ List.nodup_nil
      · rw [List.append_nil]
      · simp [Worker.taken, WorkerStage.position?, here]
      · simp [Worker.called, WorkerStage.called?, here]
      · rintro ⟨⟩
      · rintro p c id ⟨⟩
      · intro p' o' mem
        rcases List.mem_append.mp mem with old | new
        · exact h.served there old (.refl w) (more _)
        · obtain ⟨rfl, rfl⟩ : p' = p ∧ o' = ⟨id, result⟩ := by simpa using new
          obtain ⟨s, serves⟩ := h.waits there here
          obtain ⟨u, y, seat, unit, named, running'⟩ := serves.unit
          cases running.symm.trans running'
          obtain rfl : s = .done (.commit result) := returned
          exact ⟨c, by simpa using serves.mem, u, y, seat, unit, named, running'⟩
      · simp

end Accounted

/-! ## Whole batches -/

/-- A worker that is changed stays on its thread. -/
theorem map_thread_modifyWorker (k : Nat) (same : ∀ x, (f x).thread = x.thread) :
    (b.modifyWorker k f).workers.map Worker.thread = b.workers.map Worker.thread := by
  refine List.ext_getElem? fun j => ?_
  simp only [modifyWorker, List.getElem?_map, List.getElem?_modify]
  cases b.workers[j]? with
  | none => rfl
  | some x => by_cases eq : k = j <;> simp [eq, same]

/-- Workers keep their threads and the list stays what it is. -/
theorem Stepped.kept {b' : Batch} {new : List Call} (stepped : Stepped w b k w' b' new) :
    b'.units = b.units ∧ b'.workers.map Worker.thread = b.workers.map Worker.thread := by
  cases stepped with
  | idle => exact ⟨rfl, rfl⟩
  | _ => exact ⟨rfl, map_thread_modifyWorker k fun _ => rfl⟩

section Run

variable {managers : List Manager} {done : List Call}

theorem Stepped.reachable {b' : Batch} {new : List Call} (stepped : Stepped w b k w' b' new)
    (reachable : World.Reachable managers w) : World.Reachable managers w' := by
  cases stepped with
  | call => exact reachable.step _
  | _ => exact reachable

/-- In the course of a batch the account is kept. -/
theorem Accounted.run (h : Accounted w b done) (reachable : World.Reachable managers w)
    (moves : List Move) :
    Accounted (Batch.run w b moves).1 (Batch.run w b moves).2 (done ++ calls w b moves) ∧
      World.Reachable managers (Batch.run w b moves).1 ∧
      (Batch.run w b moves).2.units = b.units ∧
      (Batch.run w b moves).2.workers.map Worker.thread = b.workers.map Worker.thread := by
  induction moves generalizing w b done with
  | nil =>
      rw [calls, List.append_nil]
      exact ⟨h, reachable, rfl, rfl⟩
  | cons m rest ih =>
      rw [calls, ← List.append_assoc, Batch.run]
      cases m with
      | beside a =>
          have next := h.beside (World.endures_perform reachable.orderly a)
          rw [callsBy, List.append_nil]
          exact ih next (reachable.step a)
      | worker k =>
          have stepped := stepped h.known k
          have next := h.step reachable.orderly stepped
          obtain ⟨account, reached, units, threads⟩ := ih next (stepped.reachable reachable)
          exact ⟨account, reached, units.trans stepped.kept.1, threads.trans stepped.kept.2⟩

/-- Once all workers have finished, they have found an outcome for every position, and called one
commit for each. -/
theorem Accounted.finish (h : Accounted w b done) (returned : b.isFinished = true)
    (manned : b.units = [] ∨ b.workers ≠ []) :
    ((b.workers.flatMap Worker.found).map Prod.fst).Perm (List.range b.units.length) ∧
      (done.map Call.position).Perm ((List.range b.units.length).map some) := by
  have finished {x : Worker} (mem : x ∈ b.workers) : x.stage = .finished := by
    simpa using List.all_eq_true.mp returned x mem
  have past : min b.next b.units.length = b.units.length := by
    refine Nat.min_eq_right ?_
    rcases manned with none | some
    · simp [none]
    · obtain ⟨x, mem⟩ := List.exists_mem_of_ne_nil _ some
      obtain ⟨k, worker⟩ := List.getElem?_of_mem mem
      exact h.finished worker (finished mem)
  have taken : b.workers.flatMap Worker.taken = (b.workers.flatMap Worker.found).map Prod.fst := by
    rw [List.map_flatMap]
    exact List.flatMap_congr fun x mem => by
      simp [Worker.taken, finished mem, WorkerStage.position?]
  have called : b.workers.flatMap Worker.called =
      (b.workers.flatMap Worker.found).map Prod.fst := by
    rw [List.map_flatMap]
    exact List.flatMap_congr fun x mem => by
      simp [Worker.called, finished mem, WorkerStage.called?]
  have all := h.taken
  rw [taken, past] at all
  have each := h.called
  rw [called] at each
  exact ⟨all, each.trans (all.map some)⟩

/-- An outcome is at the position that a worker has found it for. -/
theorem mem_found_of_outcomes {n i : Nat} {o : CommitOutcome}
    (all : ((b.workers.flatMap Worker.found).map Prod.fst).Perm (List.range n))
    (there : b.outcomes[i]? = some o) :
    ∃ (k : Nat) (x : Worker), b.workers[k]? = some x ∧ (i, o) ∈ x.found := by
  obtain ⟨e, entry, rfl⟩ : ∃ e,
      (sortByPosition (b.workers.flatMap Worker.found))[i]? = some e ∧ e.2 = o := by
    simpa [outcomes] using there
  have place : e.1 = i := by
    have first := congrArg (fun positions : List Nat => positions[i]?) (map_fst_sortByPosition all)
    simp only [List.getElem?_map, entry, Option.map_some] at first
    obtain ⟨lt, eq⟩ := List.getElem?_eq_some_iff.mp first.symm
    rwa [List.getElem_range, eq_comm] at eq
  have mem := (sortByPosition_perm _).mem_iff.mp (List.mem_of_getElem? entry)
  obtain ⟨x, worker, found⟩ := List.mem_flatMap.mp mem
  obtain ⟨k, worker⟩ := List.getElem?_of_mem worker
  exact ⟨k, x, worker, place ▸ found⟩

/-- Of two commits that a batch has called for different positions, one at most returns data if both
are commits of the same unit. -/
theorem eq_of_isCommitted (h : Accounted w b done) (sole : w.Sole)
    {i j k k' u thread thread' c c' : Nat} {o o' : CommitOutcome} (mem : ⟨k, some i, c⟩ ∈ done)
    (mem' : ⟨k', some j, c'⟩ ∈ done)
    (running : w.operations[c]? = some ⟨u, thread, .done (.commit o.result)⟩)
    (running' : w.operations[c']? = some ⟨u, thread', .done (.commit o'.result)⟩)
    (committed : o.isCommitted = true) (committed' : o'.isCommitted = true) : i = j := by
  have entitled {o : CommitOutcome} (committed : o.isCommitted = true) :
      (Stage.done (.commit o.result)).isEntitled = true := by
    obtain ⟨id, result⟩ := o
    cases result with
    | error => cases committed
    | ok r =>
        cases r with
        | data => rfl
        | error => cases committed
  obtain rfl := sole running running' (entitled committed) (entitled committed')
  have same := List.inj_on_of_nodup_map h.distinct mem mem' rfl
  exact Option.some.inj (congrArg Call.position same)

/-- A batch that returns has committed every position of its list once.

A batch is begun on units that there are, in any world that a run reaches. Its workers step in any
order, and anything may go on beside them. If all of them come to an end, there were as many as the
degree of parallelism allows and no more than units. They have called one commit for every position,
each by one worker. There are as many outcomes as units, and each carries the identifier of the unit
at its position and the result of the commit that was called for that position. Of the outcomes of
one unit, one at most is committed. -/
theorem outcomes_complete (managers : List Manager) (w : World) (units threads : List Nat)
    (options : TransactionOptions) (moves : List Move) (reachable : World.Reachable managers w)
    (known : ∀ u ∈ units, ∃ x, w.units[u]? = some x)
    (manned : threads.length = workerCount units options)
    (returned : (run w (create units threads) moves).2.isFinished = true) :
    let w' := (run w (create units threads) moves).1
    let b' := (run w (create units threads) moves).2
    let done := calls w (create units threads) moves
    b'.workers.length = min options.parallelism units.length ∧
      (done.map Call.position).Perm ((List.range units.length).map some) ∧
      b'.outcomes.length = units.length ∧
      (∀ (i : Nat) (o : CommitOutcome), b'.outcomes[i]? = some o → ∃ k c u thread x,
        ⟨k, some i, c⟩ ∈ done ∧ threads[k]? = some thread ∧ units[i]? = some u ∧
          w'.units[u]? = some x ∧ o.unit = x.id ∧
            w'.operations[c]? = some ⟨u, thread, .done (.commit o.result)⟩) ∧
      ∀ (i j : Nat) (o o' : CommitOutcome), i ≠ j → units[i]? = units[j]? →
        b'.outcomes[i]? = some o → b'.outcomes[j]? = some o' →
          ¬ (o.isCommitted = true ∧ o'.isCommitted = true) := by
  intro w' b' done
  obtain ⟨account, reached, same, kept⟩ := (Accounted.create known).run reachable moves
  rw [List.nil_append] at account
  have same : b'.units = units := same
  have threads' : b'.workers.map Worker.thread = threads := by
    refine kept.trans ?_
    simp [create, Function.comp_def]
  have length : b'.workers.length = min options.parallelism units.length := by
    rw [← List.length_map (f := Worker.thread), threads', manned, workerCount]
  have crew : b'.units = [] ∨ b'.workers ≠ [] := by
    have pos := options.parallelism_pos
    rw [same]
    rcases Nat.eq_zero_or_pos units.length with none | some
    · exact .inl (List.eq_nil_of_length_eq_zero none)
    · exact .inr (List.ne_nil_of_length_pos (by omega))
  obtain ⟨all, each⟩ : ((b'.workers.flatMap Worker.found).map Prod.fst).Perm
      (List.range b'.units.length) ∧
        (done.map Call.position).Perm ((List.range b'.units.length).map some) :=
    account.finish returned crew
  rw [same] at all each
  have served (i : Nat) (o : CommitOutcome) (there : b'.outcomes[i]? = some o) :
      ∃ k c u thread x, ⟨k, some i, c⟩ ∈ done ∧ threads[k]? = some thread ∧ units[i]? = some u ∧
        w'.units[u]? = some x ∧ o.unit = x.id ∧
          w'.operations[c]? = some ⟨u, thread, .done (.commit o.result)⟩ := by
    obtain ⟨k, x, worker, found⟩ := mem_found_of_outcomes all there
    obtain ⟨c, mem, u, y, seat, unit, named, running⟩ := account.found worker found
    have thread : threads[k]? = some x.thread := by
      rw [← threads', List.getElem?_map, worker, Option.map_some]
    rw [show (run w (create units threads) moves).2.units = units from same] at seat
    exact ⟨k, c, u, x.thread, y, mem, thread, seat, unit, named.symm, running⟩
  refine ⟨length, each, ?_, served, ?_⟩
  · have count := all.length_eq
    rw [List.length_map, List.length_range] at count
    rw [outcomes, List.length_map, (sortByPosition_perm _).length_eq, count]
  · rintro i j o o' ne unit there there' ⟨committed, committed'⟩
    obtain ⟨k, c, u, thread, x, mem, -, seat, -, -, running⟩ := served i o there
    obtain ⟨k', c', u', thread', x', mem', -, seat', -, -, running'⟩ := served j o' there'
    obtain rfl : u = u' := Option.some.inj (seat.symm.trans (unit.trans seat'))
    exact ne (eq_of_isCommitted account reached.sole mem mem' running running' committed committed')

/-- A root and a leaf under it. -/
def pair : World :=
  (World.initial [.permissive]).run
    [.openUnit ⟨"root", "shared", none, 0, 0, .default⟩,
      .openUnit ⟨"leaf", "other", some 0, 0, 0, .default⟩]

/-- Two workers commit the leaf at once, and one of them the root after that. -/
def overlapping : List Move :=
  [.worker 0, .worker 1, .worker 1, .worker 0, .worker 0, .worker 0,
    .beside (.answer (.operation 2) (.response (.data ()))), .worker 1, .worker 1, .worker 0,
    .beside (.answer (.operation 4) (.response (.data ()))), .worker 0, .worker 0]

/-- The leaf is listed twice and committed once. -/
theorem outcomes_complete_overlapping :
    let b' := (run pair (create [1, 1, 0] [0, 1]) overlapping).2
    let done := calls pair (create [1, 1, 0] [0, 1]) overlapping
    (done.map Call.position).Perm [some 0, some 1, some 2] ∧
      b'.outcomes.map CommitOutcome.isCommitted = [false, true, true] ∧
        ∀ o o', b'.outcomes[0]? = some o → b'.outcomes[1]? = some o' →
          ¬ (o.isCommitted = true ∧ o'.isCommitted = true) := by
  intro b' done
  have reachable : World.Reachable [.permissive] pair := World.reachable_run [.permissive] _
  have known : ∀ u ∈ [1, 1, 0], ∃ x, pair.units[u]? = some x := by
    intro u mem
    have small : u = 1 ∨ u = 0 := by simpa using mem
    rcases small with rfl | rfl <;> exact ⟨_, rfl⟩
  obtain ⟨-, each, -, -, once⟩ := outcomes_complete [.permissive] pair [1, 1, 0] [0, 1]
    (TransactionOptions.default.withParallelism 2) overlapping reachable known rfl rfl
  exact ⟨each, rfl, fun o o' => once 0 1 o o' Nat.zero_ne_one rfl⟩

end Run

end Batch

end NestedWork
