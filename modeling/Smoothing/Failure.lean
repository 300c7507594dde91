import Smoothing.Problem.Error

/-!
# Failures of an optimizer, and all failures

Why an optimizer is refused or a step fails, and the sum of all causes a caller can meet.
-/

namespace Smoothing

inductive ParameterError (α : Type) where
  | initialLambda (lambda : α)
  | increase (factor : α)
  | decrease (factor : α)
  | minRejected (lambda : α)
  | noAttempts
  | lambda (lambda : α)
  | thresholds (relative absolute : α)
  | verbosity (name : String)
deriving Repr

inductive OptimizerError (α : Type) where
  | emptyProblem
  | parameters (cause : ParameterError α)
  /-- No damping that was tried lowers the error. -/
  | stalled (attempts : Nat) (lambda error : α)
  | initialError (error : α)
  | stepError (error : α)
  | problem (cause : ProblemError α)
  | linear (cause : LinearError α)

inductive Failure (α : Type) where
  | problem (cause : ProblemError α)
  | factor (cause : FactorError α)
  | optimizer (cause : OptimizerError α)
  | linear (cause : LinearError α)
  | group (cause : GroupError)

end Smoothing
