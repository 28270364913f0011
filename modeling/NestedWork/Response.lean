import NestedWork.Response.Error

/-!
# Responses

The outcome of an operation whose failures are expected: data or an error.

## Implementation notes

A combinator that runs a caller's function runs it in any monad, once or not at all.
-/

namespace NestedWork

/-- Data or an expected error. -/
inductive Response (α : Type) where
  | data (value : α)
  | error (error : ResponseError)
deriving DecidableEq

namespace Response

variable {α β : Type} {m : Type → Type} [Monad m]

/-- The response carries data. -/
def isData : Response α → Bool
  | data _ => true
  | error _ => false

/-- The response carries an error. -/
def isError (r : Response α) : Bool := !r.isData

/-- Goes on from the data with another response. -/
def bindM (r : Response α) (f : α → m (Response β)) : m (Response β) :=
  match r with
  | data a => f a
  | error e => pure (error e)

/-- Changes the data. -/
def mapM (r : Response α) (f : α → m β) : m (Response β) :=
  match r with
  | data a => do return data (← f a)
  | error e => pure (error e)

/-- Looks at an error and leaves the response as it is. -/
def onError (r : Response α) (f : ResponseError → m Unit) : m (Response α) := do
  match r with
  | data _ => pure ()
  | error e => f e
  return r

/-- Looks at the data and leaves the response as it is. -/
def onData (r : Response α) (f : α → m Unit) : m (Response α) := do
  match r with
  | data a => f a
  | error _ => pure ()
  return r

/-- Goes on from an error with another response. -/
def redirect (r : Response α) (f : ResponseError → m (Response α)) : m (Response α) :=
  match r with
  | data a => pure (data a)
  | error e => f e

/-- Replaces an error with data. -/
def recover (r : Response α) (f : ResponseError → m α) : m (Response α) :=
  match r with
  | data a => pure (data a)
  | error e => do return data (← f e)

/-- Runs an action whatever the response is. -/
def always (r : Response α) (f : m Unit) : m (Response α) := do
  f
  return r

/-- One value from either side. -/
def fold (r : Response α) (onError : ResponseError → β) (onData : α → β) : β :=
  match r with
  | data a => onData a
  | error e => onError e

/-- The response as a result. -/
def toExcept : Response α → Except ResponseError α
  | data a => .ok a
  | error e => .error e

/-- The response that a result makes. -/
def ofExcept : Except ResponseError α → Response α
  | .ok a => data a
  | .error e => error e

end Response

end NestedWork
