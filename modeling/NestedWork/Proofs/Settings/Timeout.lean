import NestedWork.Proofs.World.Construction
import NestedWork.Settings

/-!
# Timeouts by way of settings

A root gets its timeout from options that are given to it directly, or from settings. Settings hold
whole milliseconds and drop the fraction toward zero before anything is tested. So the two ways
agree on what is refused, except for a negative timeout of less than a millisecond. Settings make
that a timeout of zero, which is accepted and stands for no deadline at all, and they do the same to
a positive one of less than a millisecond.

## Implementation notes

All that is tested of a timeout in settings is its sign and whether it is zero. Both are read off
the fraction that is dropped: it has the sign of the timeout and is shorter than a millisecond.
-/

namespace NestedWork

namespace Duration

variable {d : Duration}

/-- A span that can occur: its milliseconds fit 64 bits, and so do those of its negation. -/
def InRange (d : Duration) : Prop := d.nanos.natAbs ≤ 9223372036854775807 * 1000000

/-- What the whole milliseconds leave of a span has its sign and is shorter than a millisecond. -/
theorem fraction_bounds (d : Duration) :
    (0 ≤ d.nanos → 0 ≤ d.nanos - d.millis * 1000000 ∧ d.nanos - d.millis * 1000000 < 1000000) ∧
      (d.nanos ≤ 0 →
        -1000000 < d.nanos - d.millis * 1000000 ∧ d.nanos - d.millis * 1000000 ≤ 0) := by
  have dropped : d.nanos - d.millis * 1000000 = d.nanos.tmod 1000000 := by
    have whole := Int.mul_tdiv_add_tmod d.nanos 1000000
    rw [millis]
    omega
  rw [dropped]
  have more := Int.lt_tmod_of_pos d.nanos (b := 1000000) (by decide)
  have less := Int.tmod_lt_of_pos d.nanos (b := 1000000) (by decide)
  constructor
  · exact fun nonneg => ⟨Int.tmod_nonneg _ nonneg, less⟩
  · intro nonpos
    have opposite := Int.tmod_nonneg (a := -d.nanos) 1000000 (by omega)
    rw [Int.neg_tmod] at opposite
    exact ⟨more, by omega⟩

theorem millis_neg_iff : d.millis < 0 ↔ d ≤ ofMillis (-1) := by
  obtain ⟨above, below⟩ := d.fraction_bounds
  simp only [le_def, ofMillis]
  constructor <;> intro <;> rcases Int.le_total 0 d.nanos with sign | sign <;>
    simp only [sign, true_implies] at above below <;> omega

theorem ofMillis_millis_eq_zero_iff :
    ofMillis d.millis = zero ↔ ofMillis (-1) < d ∧ d < ofMillis 1 := by
  obtain ⟨above, below⟩ := d.fraction_bounds
  simp only [lt_def, ofMillis, zero, mk.injEq]
  constructor <;> intro <;> rcases Int.le_total 0 d.nanos with sign | sign <;>
    simp only [sign, true_implies] at above below <;> omega

/-- The milliseconds of a span fit 64 bits. -/
theorem InRange.toInt_millis (range : d.InRange) : (Int64.ofInt d.millis).toInt = d.millis := by
  obtain ⟨above, below⟩ := d.fraction_bounds
  rw [InRange] at range
  apply Int64.toInt_ofInt_of_le <;> rcases Int.le_total 0 d.nanos with sign | sign <;>
    simp only [sign, true_implies] at above below <;> omega

end Duration

namespace Settings

variable {s : Settings} {d : Duration}

theorem effectiveTimeout_withTimeout (range : d.InRange) :
    (s.withTimeout d).effectiveTimeout = .ofMillis d.millis := by
  simp [effectiveTimeout, withTimeout, range.toInt_millis]

theorem negativeTimeout?_withTimeout (range : d.InRange) :
    (s.withTimeout d).negativeTimeout? = if d.millis < 0 then some d.millis else none := by
  simp [negativeTimeout?, withTimeout, range.toInt_millis]

/-- Settings are refused for a timeout exactly if that is a millisecond or more below zero. -/
theorem validate_withTimeout_eq_negativeTimeout {ms : Int} (range : d.InRange) :
    (s.withTimeout d).validate = .error (.negativeTimeout ms) ↔
      d ≤ .ofMillis (-1) ∧ ms = d.millis := by
  rw [← Duration.millis_neg_iff, validate, negativeTimeout?_withTimeout range]
  by_cases negative : d.millis < 0
  · simp [negative, eq_comm]
  · simp only [negative, false_and, iff_false, if_false]
    split <;> simp

end Settings

namespace World

variable {w : World} {o : Opening}

/-- The opening of a root is refused for a negative timeout, and for nothing else. -/
theorem openUnit_root (root : o.parent = none) :
    (w.openUnit o = .error (.negativeTimeout o.options.timeout) ↔
        o.options.timeout < .zero) ∧
      ((∃ w', w.openUnit o = .ok w') ↔ .zero ≤ o.options.timeout) := by
  have alone : w.parentOf? o = none := by simp [parentOf?, root]
  rw [openUnit_eq_error, exists_openUnit_iff, openingViolation?_eq_some, openingViolation?_eq_none,
    alone]
  simp

/-- Timeouts given directly and by way of settings.

Take any opening of a root, any settings and any timeout in range. Given directly, the timeout is
refused exactly if it is negative. By way of the settings it is first cut to whole milliseconds, and
the opening and the settings are refused exactly if it is a millisecond or more below zero, each for
the milliseconds that are left. So the two openings have the same outcome unless the timeout is
negative and shorter than a millisecond. The settings have a timeout of zero exactly if less than a
millisecond was asked for, on either side of zero, and then the transaction that is opened has no
deadline. -/
theorem configured_timeout (w : World) (o : Opening) (s : Settings) (d : Duration)
    (root : o.parent = none) (range : d.InRange) :
    let direct : Opening := { o with options := o.options.withTimeout d }
    let configured : Opening := { o with options := (s.withTimeout d).options }
    let whole := Duration.ofMillis d.millis
    (w.openUnit direct = .error (.negativeTimeout d) ↔ d < .zero) ∧
      ((∃ w', w.openUnit direct = .ok w') ↔ .zero ≤ d) ∧
      (w.openUnit configured = .error (.negativeTimeout whole) ↔ d ≤ .ofMillis (-1)) ∧
      ((∃ w', w.openUnit configured = .ok w') ↔ .ofMillis (-1) < d) ∧
      (((∃ w', w.openUnit direct = .ok w') ↔ ∃ w', w.openUnit configured = .ok w') ↔
        ¬ (.ofMillis (-1) < d ∧ d < .zero)) ∧
      (∀ ms, (s.withTimeout d).validate = .error (.negativeTimeout ms) ↔
        d ≤ .ofMillis (-1) ∧ ms = d.millis) ∧
      (s.withTimeout d).effectiveTimeout = whole ∧
      (whole = .zero ↔ .ofMillis (-1) < d ∧ d < .ofMillis 1) ∧
      (whole = .zero → ∀ localId sequence createdAt started,
        (Transaction.create localId sequence createdAt started
          (s.withTimeout d).options).deadline = none) := by
  intro direct configured whole
  have effective : (s.withTimeout d).effectiveTimeout = whole :=
    Settings.effectiveTimeout_withTimeout range
  have cut : configured.options.timeout = whole := effective
  have refused : whole < .zero ↔ d ≤ .ofMillis (-1) := by
    rw [← Duration.millis_neg_iff, Duration.lt_def]
    simp only [whole, Duration.ofMillis, Duration.zero]
    omega
  have accepted : .zero ≤ whole ↔ .ofMillis (-1) < d := by
    rw [← not_lt, refused, not_le]
  obtain ⟨fails, opens⟩ := openUnit_root (w := w) (o := direct) root
  obtain ⟨fails', opens'⟩ := openUnit_root (w := w) (o := configured) root
  rw [cut, refused] at fails'
  rw [cut, accepted] at opens'
  refine ⟨fails, opens, fails', opens', ?_,
    fun ms => Settings.validate_withTimeout_eq_negativeTimeout range, effective,
    Duration.ofMillis_millis_eq_zero_iff, ?_⟩
  · rw [opens, opens']
    have nonneg : .zero ≤ d → .ofMillis (-1) < d := lt_of_lt_of_le (by decide)
    show (.zero ≤ d ↔ _) ↔ _
    rw [not_and, not_lt]
    exact ⟨Iff.mpr, fun agree => ⟨nonneg, agree⟩⟩
  · intro none localId sequence createdAt started
    have cut : (s.withTimeout d).options.timeout = .zero := cut.trans none
    simp [Transaction.deadline, Transaction.create, cut]

/-- Half a millisecond below zero is refused if it is given directly, and is no deadline by way of
settings. -/
theorem configured_timeout_half :
    let o : Opening := ⟨"root", "shared", none, 0, 0, .default⟩
    let d : Duration := ⟨-500000⟩
    o.parent = none ∧ d.InRange ∧
      (initial [.permissive]).openUnit { o with options := o.options.withTimeout d } =
        .error (.negativeTimeout d) ∧
      (∃ w', (initial [.permissive]).openUnit
        { o with options := (Settings.default.withTimeout d).options } = .ok w') ∧
      (∀ ms, (Settings.default.withTimeout d).validate ≠ .error (.negativeTimeout ms)) ∧
      (Settings.default.withTimeout d).effectiveTimeout = .zero := by
  intro o d
  have range : d.InRange := by
    simp [Duration.InRange, d]
  obtain ⟨fails, -, -, opens, -, invalid, effective, cut, -⟩ :=
    configured_timeout (initial [.permissive]) o Settings.default d rfl range
  refine ⟨rfl, range, fails.mpr (by decide), opens.mpr (by decide), ?_, ?_⟩
  · intro ms refused
    exact absurd ((invalid ms).mp refused).1 (by decide)
  · exact effective.trans (cut.mpr ⟨by decide, by decide⟩)

end World

end NestedWork
