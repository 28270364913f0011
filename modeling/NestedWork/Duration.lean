/-!
# Spans of time and points on the clock

A duration is a signed whole number of nanoseconds. An instant is a point on the
monotonic clock, counted in nanoseconds from the clock's own zero.

## Implementation notes

Two readings of a duration occur in texts and they differ below zero. The whole
milliseconds drop the fraction toward zero. The seconds part of the split form is the
floor, and its nanoseconds are never negative.
-/

namespace NestedWork

/-- A signed span of time in nanoseconds. -/
structure Duration where
  nanos : Int
deriving DecidableEq, Repr, Inhabited

namespace Duration

/-- The span of no length. -/
def zero : Duration := ⟨0⟩

/-- A whole number of milliseconds. -/
def ofMillis (ms : Int) : Duration := ⟨ms * 1000000⟩

/-- A whole number of seconds. -/
def ofSeconds (s : Int) : Duration := ⟨s * 1000000000⟩

/-- Seconds plus nanoseconds, as the split form writes them. -/
def ofParts (seconds : Int) (nanos : Nat) : Duration := ⟨seconds * 1000000000 + nanos⟩

/-- The whole milliseconds of a span, its fraction dropped toward zero. -/
def millis (d : Duration) : Int := d.nanos.tdiv 1000000

/-- The seconds of the split form: the floor of the span. -/
def secondsPart (d : Duration) : Int := d.nanos.fdiv 1000000000

/-- The nanoseconds of the split form, at least zero and below one second. -/
def nanosPart (d : Duration) : Int := d.nanos.fmod 1000000000

instance : LT Duration := ⟨fun a b => a.nanos < b.nanos⟩
instance : LE Duration := ⟨fun a b => a.nanos ≤ b.nanos⟩

instance (a b : Duration) : Decidable (a < b) := inferInstanceAs (Decidable (a.nanos < b.nanos))
instance (a b : Duration) : Decidable (a ≤ b) := inferInstanceAs (Decidable (a.nanos ≤ b.nanos))

/-- The order of spans is the order of their nanoseconds. -/
theorem lt_def {a b : Duration} : a < b ↔ a.nanos < b.nanos := Iff.rfl

/-- The order of spans is the order of their nanoseconds. -/
theorem le_def {a b : Duration} : a ≤ b ↔ a.nanos ≤ b.nanos := Iff.rfl

end Duration

/-- A point on the monotonic clock, in nanoseconds. -/
structure Instant where
  nanos : Nat
deriving DecidableEq, Repr, Inhabited

namespace Instant

/-- The last instant the clock can represent: a signed 64-bit count of seconds. -/
def latest : Instant := ⟨9223372036854775808 * 1000000000 - 1⟩

instance : LE Instant := ⟨fun a b => a.nanos ≤ b.nanos⟩
instance : LT Instant := ⟨fun a b => a.nanos < b.nanos⟩

instance (a b : Instant) : Decidable (a ≤ b) := inferInstanceAs (Decidable (a.nanos ≤ b.nanos))
instance (a b : Instant) : Decidable (a < b) := inferInstanceAs (Decidable (a.nanos < b.nanos))

/-- The instant a span later, if the span is not negative and the clock reaches it. -/
def after? (i : Instant) (d : Duration) : Option Instant :=
  if 0 ≤ d.nanos ∧ i.nanos + d.nanos.toNat ≤ latest.nanos then
    some ⟨i.nanos + d.nanos.toNat⟩
  else none

end Instant

end NestedWork
