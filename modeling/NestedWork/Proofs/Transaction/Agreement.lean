import Mathlib.Data.List.Nodup
import NestedWork.Proofs.Transaction.Ledger

/-!
# Two-phase agreement

What every accepted participant can rely on, however the calls on a transaction interleave: it is
asked at most once, it is told one outcome, and the outcome is the one that all are told.
-/

namespace NestedWork.Transaction

open scoped List

variable {t : Transaction} {past : List Event}

namespace Ledger

/-- No two participants are accepted alike. -/
theorem enlisted_nodup (l : Ledger past t) : (past.filterMap Event.enlisted?).Nodup := by
  have seats : ((past.filterMap Event.enlisted?).map Enlistment.seat).Nodup :=
    l.seats ▸ List.nodup_range
  exact List.Nodup.of_map _ seats

theorem count_asked_le (l : Ledger past t) (e : Enlistment) : past.count (.asked e) ≤ 1 := by
  have asked : (past.filterMap Event.asked?) <+~ past.filterMap Event.enlisted? :=
    (List.sublist_append_left _ _).subperm.trans l.askable
  have once : (past.filterMap Event.asked?).count e ≤ 1 :=
    Nat.le_trans (asked.count_le e) (List.nodup_iff_count_le_one.mp l.enlisted_nodup e)
  rw [List.count_filterMap] at once
  rw [List.count_eq_countP]
  refine Nat.le_trans (List.countP_mono_left ?_) once
  intro event _ same
  obtain rfl := eq_of_beq same
  simp [Event.asked?]

theorem countP_tells (past : List Event) (e : Enlistment) :
    past.countP (Event.tells e) = (past.filterMap Event.told?).count e := by
  rw [List.count_filterMap]
  rfl

theorem countP_tells_le (l : Ledger past t) (e : Enlistment) :
    past.countP (Event.tells e) ≤ 1 := by
  have told : (past.filterMap Event.told?) <+~ past.filterMap Event.enlisted? :=
    (List.sublist_append_left _ _).subperm.trans l.conserved.subperm
  rw [countP_tells]
  exact Nat.le_trans (told.count_le e) (List.nodup_iff_count_le_one.mp l.enlisted_nodup e)

/-- Once the fate is decided and nobody is about to tell it, all have been told. -/
theorem told_perm (l : Ledger past t) (closed : t.status ≠ .active)
    (idle : ∀ c ∈ t.calls, c.purpose.decides → c.point.isFinished) :
    (past.filterMap Event.told?).Perm (past.filterMap Event.enlisted?) := by
  have empty := l.consistent.emptied (.inr closed)
  have nobody : t.held = [] := by
    rw [held, List.flatMap_eq_nil_iff]
    intro c mem
    cases decides : c.purpose.decides with
    | true =>
        have finished := idle c mem decides
        cases eq : c.point <;> simp [eq, Point.isFinished, Point.held] at finished ⊢
    | false =>
        rcases l.consistent.mild c mem decides with eq | ⟨r, eq⟩ <;> rw [eq] <;> rfl
  simpa [empty, nobody] using l.conserved

end Ledger

/-- Every accepted participant is asked to prepare at most once and told an outcome at most once.
It is told to commit only by a transaction that is committed, after all that were accepted were
asked and voted for it, and to roll back only by one that is aborted. Once the fate is decided and
no call that may decide it is running, it has been told. -/
theorem two_phase_agreement (localId : String) (sequence : Nat)
    (createdAt : Calendar.Timestamp) (started : Instant) (options : TransactionOptions)
    (steps : List (Instant × Action)) (e : Enlistment) :
    let fresh := create localId sequence createdAt started options
    let t := fresh.run steps
    let past := fresh.history steps
    .enlisted e ∈ past →
      past.count (.asked e) ≤ 1 ∧
      past.countP (Event.tells e) ≤ 1 ∧
      (.told .commit e ∈ past → t.status = .committed ∧
        ∀ m, .enlisted m ∈ past → .asked m ∈ past ∧ .voted m .prepared ∈ past) ∧
      (.told .rollback e ∈ past → t.status = .aborted) ∧
      (t.status.isTerminal → (∀ c ∈ t.calls, c.purpose.decides → c.point.isFinished) →
        past.countP (Event.tells e) = 1) := by
  intro fresh t past accepted
  have l : Ledger past t := ledger_run localId sequence createdAt started options steps
  refine ⟨l.count_asked_le e, l.countP_tells_le e, ?_, l.told .rollback e, ?_⟩
  · intro told
    have committed := l.told .commit e told
    refine ⟨committed, fun m mem => l.unanimous committed m ?_⟩
    exact List.mem_filterMap.mpr ⟨_, mem, rfl⟩
  · intro terminal idle
    have closed : t.status ≠ .active := by
      intro active
      simp [active, Status.isTerminal] at terminal
    have once : 0 < (past.filterMap Event.told?).count e :=
      List.count_pos_iff.mpr
        ((l.told_perm closed idle).mem_iff.mpr (List.mem_filterMap.mpr ⟨_, accepted, rfl⟩))
    have le := l.countP_tells_le e
    rw [Ledger.countP_tells] at le ⊢
    omega

/-- One participant, asked, voting for the commit and told of it. -/
def unopposed : List (Instant × Action) :=
  [.enlist 7, .begin .commit, .advance 0, .advance 0, .vote 0 .prepared, .advance 0, .advance 0,
    .advance 0, .acknowledge 0].map fun a => (⟨0⟩, a)

theorem two_phase_agreement_unopposed :
    let fresh := create "" 0 ⟨0, 0⟩ ⟨0⟩ .default
    let past := fresh.history unopposed
    .enlisted ⟨0, 7⟩ ∈ past ∧ .told .commit ⟨0, 7⟩ ∈ past ∧
      (fresh.run unopposed).status = .committed ∧ .voted ⟨0, 7⟩ .prepared ∈ past ∧
      past.countP (Event.tells ⟨0, 7⟩) = 1 := by
  intro fresh past
  have accepted : .enlisted ⟨0, 7⟩ ∈ past := by decide
  have told : .told .commit ⟨0, 7⟩ ∈ past := by decide
  obtain ⟨-, -, commit, -, last⟩ :=
    two_phase_agreement "" 0 ⟨0, 0⟩ ⟨0⟩ .default unopposed ⟨0, 7⟩ accepted
  obtain ⟨committed, all⟩ := commit told
  exact ⟨accepted, told, committed, (all _ accepted).2, last (by decide) (by decide)⟩

end NestedWork.Transaction
