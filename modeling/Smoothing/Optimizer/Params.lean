import Smoothing.Optimizer.Verbosity
import Smoothing.Scalar

/-!
# Parameters of an optimizer
-/

namespace Smoothing

structure Params (α : Type) where
  maxIterations : Nat
  initialLambda : α
  increase : α
  decrease : α
  maxAttempts : Nat
  /-- The least damping after a rejected step, so that a damping of zero can grow. -/
  minRejected : α
  verbosity : Verbosity
deriving Repr, BEq

namespace Params

variable {α : Type} [Scalar α]

def default : Params α where
  maxIterations := 100
  initialLambda := 1e-5
  increase := 10.0
  decrease := 0.1
  maxAttempts := 20
  minRejected := 1e-8
  verbosity := .silent

end Params

inductive Status where
  | converged
  | maxIterations
  | stalled
deriving DecidableEq, Repr

def Status.text : Status → String
  | .converged => "Converged"
  | .maxIterations => "Maximum iterations reached"
  | .stalled => "Stalled"

structure Summary (α : Type) where
  status : Status
  iterations : Nat
  initialError : α
  finalError : α
deriving Repr

end Smoothing
