import NestedWork.Options

/-!
# Settings

The configured defaults that units of work open their transactions with.
-/

namespace NestedWork

/-- Configured defaults. A timeout is in milliseconds. What is not set has a default of its
own. -/
structure Settings where
  timeout : Option Int64
  parallelism : Option UInt64
  isolation : IsolationLevel
deriving DecidableEq

/-- Why settings cannot be used. -/
inductive SettingsError where
  /-- The timeout is below zero, by the milliseconds given. -/
  | negativeTimeout (millis : Int)
  /-- No worker is allowed. -/
  | noParallelism
deriving DecidableEq, Repr

/-- The words for unusable settings. -/
def SettingsError.message : SettingsError → String
  | negativeTimeout ms => s!"transaction timeout must not be negative, got {ms}ms"
  | noParallelism => "max degree of parallelism must be at least 1"

namespace Settings

/-- The settings of a configuration that says nothing. -/
def default : Settings := ⟨none, none, IsolationLevel.default⟩

/-- The same settings with a timeout, in whole milliseconds. -/
def withTimeout (s : Settings) (d : Duration) : Settings :=
  { s with timeout := some (Int64.ofInt d.millis) }

/-- The same settings for another number of workers. -/
def withParallelism (s : Settings) (n : UInt64) : Settings := { s with parallelism := some n }

/-- The same settings at another level. -/
def withIsolation (s : Settings) (l : IsolationLevel) : Settings := { s with isolation := l }

/-- The timeout in force. -/
def effectiveTimeout (s : Settings) : Duration :=
  match s.timeout with
  | some ms => Duration.ofMillis ms.toInt
  | none => TransactionOptions.defaultTimeout

/-- The number of workers in force. -/
def effectiveParallelism (s : Settings) : Nat :=
  match s.parallelism with
  | some n => n.toNat
  | none => 1

/-- The options of a transaction opened under these settings. -/
def options (s : Settings) : TransactionOptions :=
  (TransactionOptions.ofLevel s.isolation s.effectiveTimeout).withParallelism
    s.effectiveParallelism

/-- The configured timeout is below zero. -/
def negativeTimeout? (s : Settings) : Option Int :=
  match s.timeout with
  | some ms => if ms.toInt < 0 then some ms.toInt else none
  | none => none

/-- What makes the settings unusable, a negative timeout before a lack of workers. -/
def validate (s : Settings) : Except SettingsError Unit :=
  match s.negativeTimeout? with
  | some ms => .error (.negativeTimeout ms)
  | none => if s.parallelism = some 0 then .error .noParallelism else .ok ()

end Settings

end NestedWork
