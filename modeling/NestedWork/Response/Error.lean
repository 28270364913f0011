import NestedWork.Work.Failure
import NestedWork.Work.Violation

/-!
# Errors in a response

An error that travels in a response: a stable code, and what it wraps.
-/

namespace NestedWork

/-- An expected failure, by its code and what lies behind it. -/
inductive ResponseError where
  /-- The failure is only told in words. -/
  | told (code message : String)
  /-- A transaction did not commit. -/
  | ofAborted (code : String) (cause : Aborted)
  /-- A caller broke the contract of a unit. -/
  | ofViolation (code : String) (cause : Violation)
  /-- A unit failed to commit. -/
  | ofFailure (code : String) (cause : Failure)
  /-- Another response carried an error. -/
  | nested (code : String) (cause : ResponseError)
deriving DecidableEq, Repr

namespace ResponseError

/-- The error that reports a failure under the failure's own code. -/
def failure (f : Failure) : ResponseError := ofFailure f.code f

/-- The stable code. -/
def code : ResponseError → String
  | told code _ | ofAborted code _ | ofViolation code _ | ofFailure code _ | nested code _ => code

/-- The words for what the error wraps. -/
def innerMessage : ResponseError → String
  | told _ message => message
  | ofAborted _ cause => cause.message
  | ofViolation _ cause => cause.message
  | ofFailure _ cause => cause.message
  | nested _ cause => cause.code ++ ": " ++ cause.innerMessage

/-- The words for the error. -/
def message (e : ResponseError) : String := e.code ++ ": " ++ e.innerMessage

/-- The words for each cause behind the error, nearest first. -/
def causes : ResponseError → List String
  | e@(told _ _) | e@(ofAborted _ _) | e@(ofViolation _ _) => [e.innerMessage]
  | e@(ofFailure _ (.commitFailed _ _ cause)) => [e.innerMessage, cause.message]
  | e@(ofFailure _ _) => [e.innerMessage]
  | nested _ cause => cause.message :: cause.causes

/-- The layout of an error's diagnostic text. -/
def shown (code inner : String) : String :=
  Diagnostic.record "ResponseError" [("code", Diagnostic.quoted code), ("error", inner)]

/-- The diagnostic text of the error. -/
def diagnostic : ResponseError → String
  | told code message =>
    shown code (Diagnostic.applied "MessageError" (Diagnostic.quoted message))
  | ofAborted code cause => shown code cause.diagnostic
  | ofViolation code cause => shown code cause.diagnostic
  | ofFailure code cause => shown code cause.diagnostic
  | nested code cause => shown code cause.diagnostic
end ResponseError

end NestedWork
