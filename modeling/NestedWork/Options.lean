import NestedWork.Duration
import NestedWork.Isolation

/-!
# Transaction options

What a unit of work asks of the transaction it opens.
-/

namespace NestedWork

/-- The options a transaction is opened with. At least one worker is always allowed. -/
structure TransactionOptions where
  isolation : IsolationLevel
  timeout : Duration
  parallelism : Nat
  parallelism_pos : 0 < parallelism
deriving DecidableEq

namespace TransactionOptions

/-- The timeout of a transaction that asks for none. -/
def defaultTimeout : Duration := Duration.ofSeconds 60

/-- Options of the given level and timeout, for one worker. -/
def ofLevel (isolation : IsolationLevel) (timeout : Duration) : TransactionOptions :=
  ⟨isolation, timeout, 1, Nat.one_pos⟩

/-- The options of a transaction that asks for nothing. -/
def default : TransactionOptions := ofLevel IsolationLevel.default defaultTimeout

instance : Inhabited TransactionOptions := ⟨default⟩

/-- The same options at another level. -/
def withIsolation (o : TransactionOptions) (l : IsolationLevel) : TransactionOptions :=
  { o with isolation := l }

/-- The same options with another timeout. -/
def withTimeout (o : TransactionOptions) (d : Duration) : TransactionOptions :=
  { o with timeout := d }

/-- The same options for another number of workers. None counts as one. -/
def withParallelism (o : TransactionOptions) (n : Nat) : TransactionOptions :=
  { o with parallelism := max n 1, parallelism_pos := by omega }

end TransactionOptions

end NestedWork
