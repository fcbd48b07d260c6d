/-!
# Failed reflective invocations

A reflective call that could not be made, or that threw, is reported as one
error. It either states a plain reason or wraps the failure that caused it:
a text, or another failed invocation.
-/

namespace JvmClass

/-- How a reflective call failed. -/
inductive InvocationFailure where
  /-- The called method threw. -/
  | targetException
  /-- The member is not accessible. -/
  | illegalAccess
  /-- The class does not exist. -/
  | classNotFound
  /-- Anything else, described by a plain reason. -/
  | other
  deriving DecidableEq, Repr

/-- The kinds of failure that wrap a cause. -/
inductive WrappedFailure where
  /-- The called method threw. -/
  | targetException
  /-- The member is not accessible. -/
  | illegalAccess
  /-- The class does not exist. -/
  | classNotFound
  deriving DecidableEq, Repr

/-- The failure that a wrapped kind stands for. -/
def WrappedFailure.toFailure : WrappedFailure → InvocationFailure
  | .targetException => .targetException
  | .illegalAccess => .illegalAccess
  | .classNotFound => .classNotFound

/-- A reflective call that did not return. -/
inductive InvocationError where
  /-- A plain reason. -/
  | reason (text : String)
  /-- A failure caused by an error of which only the text is known. -/
  | byText (failure : WrappedFailure) (cause : String)
  /-- A failure caused by another failed invocation. -/
  | byInvocation (failure : WrappedFailure) (cause : InvocationError)
  deriving DecidableEq, Repr

namespace InvocationError

/-- How the call failed. -/
def failure : InvocationError → InvocationFailure
  | .reason _ => .other
  | .byText failure _ => failure.toFailure
  | .byInvocation failure _ => failure.toFailure

/-- The text of the error. A wrapped failure repeats the text of its cause. -/
def message : InvocationError → String
  | .reason text => text
  | .byText _ cause => "by " ++ cause
  | .byInvocation _ cause => "by " ++ cause.message

/-- The texts of the causes, the nearest first. -/
def causes : InvocationError → List String
  | .reason _ => []
  | .byText _ cause => [cause]
  | .byInvocation _ cause => cause.message :: cause.causes

/-- The text of the wrapped failure. A plain reason wraps none. -/
def cause? (error : InvocationError) : Option String := error.causes.head?

end InvocationError

end JvmClass
