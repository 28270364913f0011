import Mathlib.Data.List.Chain
import NestedWork.Proofs.World.Forest

/-!
# The course of a run

The worlds that a run passes through, one step after the other.

## Implementation notes

One action of the environment may take an operation through several stages, so the worlds after
the actions do not show all that has happened. A course shows the worlds between the steps of one
action as well. What is said of every course of a run is said of all that happens in it.
-/

namespace NestedWork.World

variable {w w' : World} {l : Label} {managers : List Manager} {past : List Action}
  {ws : List World}

/-- A step leads from one world to the other, whoever takes it. -/
def Follows (w w' : World) : Prop := ∃ l, w.Step l w'

/-- The worlds that a run passes through, from the one in which nothing has happened. -/
inductive Course (managers : List Manager) : List Action → List World → Prop
  | start : Course managers [] [initial managers]
  | perform {past : List Action} {a : Action} {ws more : List World}
      (before : Course managers past ws)
      (steps : ((initial managers).run past :: more).IsChain Follows)
      (arrives : ((initial managers).run past :: more).getLast (List.cons_ne_nil _ _) =
        (initial managers).run (past ++ [a])) :
      Course managers (past ++ [a]) (ws ++ more)

/-! ## Every run has a course -/

theorem Steps.follows (steps : w.Steps w') : Relation.ReflTransGen Follows w w' := by
  induction steps with
  | refl => exact .refl
  | tail _ step ih => exact ih.tail ⟨.quiet, step⟩

/-- An action is a number of steps. -/
theorem follows_perform (seated : w.Seated) (a : Action) :
    Relation.ReflTransGen Follows w (w.perform a) := by
  rcases perform_cases seated a with ⟨n, -, step⟩ | ⟨c, r, -, -, -, -, w₁, -, step, rest⟩ | steps
  · exact .single ⟨_, step⟩
  · exact .head ⟨_, step⟩ rest.follows
  · exact steps.follows

theorem exists_course (managers : List Manager) (past : List Action) :
    ∃ ws, Course managers past ws := by
  induction past using List.reverseRecOn with
  | nil => exact ⟨_, .start⟩
  | append_singleton past a ih =>
      obtain ⟨ws, course⟩ := ih
      obtain ⟨more, steps, arrives⟩ := List.exists_isChain_cons_of_relationReflTransGen
        (follows_perform (orderly_run managers past).seated a)
      refine ⟨ws ++ more, course.perform steps (arrives.trans ?_)⟩
      rw [run_append]
      rfl

/-! ## What is gathered along a course -/

section Gathered

variable {α : Type} {between : World → World → List α} {gathered : List World → List α}
  (alone : ∀ w, gathered [w] = [])
  (pair : ∀ w w' rest, gathered (w :: w' :: rest) = between w w' ++ gathered (w' :: rest))

include alone pair

/-- What is gathered from the worlds of a course, pair by pair, is gathered up to any of them and
from there on. -/
theorem gathered_append (front : List World) (w : World) (rest : List World) :
    gathered (front ++ w :: rest) = gathered (front ++ [w]) ++ gathered (w :: rest) := by
  induction front with
  | nil => simp [alone]
  | cons v front ih =>
      cases front with
      | nil => simp [pair, alone]
      | cons v' front =>
          simp only [List.cons_append, pair] at ih ⊢
          rw [ih, List.append_assoc]

/-- It gets longer with every world by what the last pair adds. -/
theorem gathered_concat (front : List World) (w w' : World) :
    gathered (front ++ [w] ++ [w']) = gathered (front ++ [w]) ++ between w w' := by
  rw [List.append_assoc, List.singleton_append, gathered_append alone pair, pair, alone,
    List.append_nil]

end Gathered

/-! ## Courses as chains -/

namespace Course

/-- A course ends with the world that the run has come to. -/
theorem exists_eq_concat (course : Course managers past ws) :
    ∃ front, ws = front ++ [(initial managers).run past] := by
  induction course with
  | start => exact ⟨[], rfl⟩
  | @perform past a ws more before steps arrives ih =>
      obtain ⟨front, rfl⟩ := ih
      cases more using List.reverseRecOn with
      | nil =>
          have same : (initial managers).run past = (initial managers).run (past ++ [a]) := arrives
          exact ⟨front, by rw [List.append_nil, same]⟩
      | append_singleton more last =>
          have same : last = (initial managers).run (past ++ [a]) := by simpa using arrives
          exact ⟨front ++ [(initial managers).run past] ++ more, by simp [same]⟩

/-- A course begins with the world in which nothing has happened. -/
theorem exists_eq_cons (course : Course managers past ws) :
    ∃ rest, ws = initial managers :: rest := by
  induction course with
  | start => exact ⟨[], rfl⟩
  | perform before steps arrives ih =>
      obtain ⟨rest, rfl⟩ := ih
      exact ⟨_, rfl⟩

theorem isChain (course : Course managers past ws) : ws.IsChain Follows := by
  induction course with
  | start => exact .singleton _
  | @perform past a ws more before steps arrives ih =>
      obtain ⟨front, rfl⟩ := before.exists_eq_concat
      rw [List.append_assoc]
      exact List.isChain_split.mpr ⟨ih, steps⟩

/-- What holds in the beginning and is kept by every step holds all along. -/
theorem forall_mem {P : World → Prop} (course : Course managers past ws)
    (start : P (initial managers))
    (step : ∀ {w w' : World} {l : Label}, P w → w.Step l w' → P w') : ∀ w ∈ ws, P w := by
  obtain ⟨rest, rfl⟩ := course.exists_eq_cons
  exact course.isChain.induction P _ (fun _ _ ⟨_, follows⟩ before => step before follows)
    fun _ => start

/-- The worlds that a run shows after its actions are on its course. -/
theorem run_mem {earlier : List Action} (course : Course managers past ws)
    (before : earlier <+: past) : (initial managers).run earlier ∈ ws := by
  induction course with
  | start =>
      rw [List.prefix_nil.mp before]
      exact List.mem_singleton_self _
  | perform course steps arrives ih =>
      rcases List.prefix_concat_iff.mp before with rfl | before
      · obtain ⟨front, eq⟩ := (course.perform steps arrives).exists_eq_concat
        rw [eq]
        exact List.mem_append_right _ (List.mem_singleton_self _)
      · exact List.mem_append_left _ (ih before)

/-- Two worlds that follow upon each other on a course are before and after a step. -/
theorem follows (course : Course managers past ws) (adjacent : [w, w'] <:+: ws) :
    w.Follows w' := by
  obtain ⟨front, rest, rfl⟩ := adjacent
  have pair := (List.isChain_append.mp (List.isChain_append.mp course.isChain).1).2.1
  exact (List.isChain_cons_cons.mp pair).1

/-- What holds in the beginning, and is kept by every step along with the worlds before it, holds of
every world and of those before it. -/
theorem induction_split {P : List World → World → Prop} {front rest : List World}
    (course : Course managers past ws) (start : P [] (initial managers))
    (step : ∀ {front : List World} {w w' : World} {l : Label}, P front w → w.Step l w' →
      P (front ++ [w]) w') (split : ws = front ++ w :: rest) : P front w := by
  induction front using List.reverseRecOn generalizing w rest with
  | nil =>
      obtain ⟨more, eq⟩ := course.exists_eq_cons
      obtain ⟨rfl, -⟩ := List.cons.inj (split.symm.trans eq)
      exact start
  | append_singleton front v ih =>
      rw [List.append_assoc] at split
      obtain ⟨l, follows⟩ := course.follows ⟨front, rest, by simpa using split.symm⟩
      exact step (ih split) follows

/-- What holds at some time and not in the end ceases to hold at some step. -/
theorem exists_ceases {P : World → Prop} (course : Course managers past ws) (mem : w ∈ ws)
    (holds : P w) (ends : ¬ P ((initial managers).run past)) :
    ∃ w₁ w₂, [w₁, w₂] <:+: ws ∧ P w₁ ∧ ¬ P w₂ := by
  obtain ⟨front, rfl⟩ := course.exists_eq_concat
  clear course
  induction front generalizing w with
  | nil =>
      rw [List.mem_singleton.mp mem] at holds
      exact absurd holds ends
  | cons v front ih =>
      have later {w : World} (mem : w ∈ front ++ [(initial managers).run past]) (holds : P w) :
          ∃ w₁ w₂, [w₁, w₂] <:+: v :: front ++ [(initial managers).run past] ∧ P w₁ ∧ ¬ P w₂ := by
        obtain ⟨w₁, w₂, adjacent, rest⟩ := ih holds mem
        exact ⟨w₁, w₂, List.infix_cons adjacent, rest⟩
      rcases List.mem_cons.mp mem with rfl | mem
      · cases front with
        | nil => exact ⟨w, _, List.infix_rfl, holds, ends⟩
        | cons v front =>
            by_cases still : P v
            · exact later (List.mem_cons_self ..) still
            · exact ⟨w, v, (List.prefix_append [w, v] _).isInfix, holds, still⟩
      · exact later mem holds

end Course

end NestedWork.World
