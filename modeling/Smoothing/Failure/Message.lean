import Smoothing.Decimal.Text
import Smoothing.Failure
import Smoothing.Scalar.Binary64

/-!
# Messages of failures

The text of every failure. A failure that wraps another one says so in its own message and gives the
wrapped one as its source; the messages of both together are the chain of the failure.
-/

namespace Smoothing

open Decimal

namespace NoiseError

def message : NoiseError Float → String
  | sigma σ => s!"sigma must be positive, got {plain σ}"
  | zeroDimension => "dimension must be at least 1"
  | notSquare rows cols => s!"covariance must be square, got {rows}x{cols}"
  | notFinite => "covariance has NaN or Inf entries"
  | notSymmetric asymmetry =>
    s!"covariance is not symmetric (max asymmetry {scientific 3 asymmetry})"
  | notDefinite => "covariance is not positive definite"
  | notInvertible => "covariance factor is not invertible"

def fullMessage (e : NoiseError Float) : String := s!"Invalid noise model: {e.message}"

end NoiseError

namespace OrderError

def message : OrderError → String
  | repeated key => s!"key {key} appears more than once"
  | missing key => s!"graph variable {key} is not in the ordering"
  | extra key => s!"key {key} is not a variable of the graph"

end OrderError

namespace SizeConflict

def message : SizeConflict Float → String
  | keyCount keys blocks => s!"{keys} keys but {blocks} blocks"
  | blockRows key rows rhs => s!"block for {key} has {rows} rows, rhs has {rhs}"
  | repeatedKey => "a key appears twice in one factor"
  | columns key first other => s!"variable {key} has blocks with {first} and {other} columns"
  | damping lambda => s!"damping must be finite and non-negative, got {plain lambda}"
  | maskLength factors mask =>
    s!"linear graph has {factors} factors but the subgraph was built for {mask}"

end SizeConflict

namespace OrderConflict

def message : OrderConflict → String
  | unreached keys => s!"factor on [{Key.listText keys}] is not reached by the ordering"
  | uncovered key => s!"variable {key} is not in the ordering"

end OrderConflict

namespace LinearError

def curvatureDetail (curvature : Float) : String :=
  s!"conjugate gradient lost positive definiteness (pᵀAp = {scientific 3 curvature})"

def message : LinearError Float → String
  | degenerate key => s!"Degenerate system: variable {key} is not determined by its factors"
  | lostDefiniteness curvature => s!"Matrix factorization failed: {curvatureDetail curvature}"
  | singular => "Singular matrix detected (matrix is not invertible)"
  | notConverged iterations residual _ => "Iterative solver did not converge after " ++
      s!"{iterations} iterations (residual {scientific 3 residual})"
  | missingKey key => s!"Variable {key} is missing from the linear system"
  | sizes conflict => s!"Dimension mismatch: {conflict.message}"
  | ordering conflict => s!"Invalid ordering: {conflict.message}"

end LinearError

namespace FactorError

def detail : FactorError Float → String
  | noJacobian => "no Jacobian was produced"
  | jacobianShape rows cols actualRows actualCols =>
    s!"expected a {rows}x{cols} Jacobian, got {actualRows}x{actualCols}"
  | jacobianNotFinite => "Jacobian has NaN or Inf entries"
  | residualNotFinite => "residual has NaN or Inf entries"
  | selfLoop key => s!"between factor connects {key} to itself"
  | noise cause => cause.fullMessage
  | .tolerance bound =>
    s!"feasibility tolerance must be finite and non-negative, got {plain bound}"
  | linear cause => cause.message
  | dimension _ _ | manifold _ _ _ | missingKey _ | infeasible _ _ => ""

def message : FactorError Float → String
  | dimension expected actual => s!"Invalid dimension: expected {expected}, got {actual}"
  | manifold key expected actual =>
    s!"Variable {key} has type {actual.text}, expected {expected.text}"
  | missingKey key => s!"Variable {key} is missing from the config"
  | infeasible key violation =>
    s!"Variable {key} violates its equality constraint by {scientific 3 violation}"
  | e@noJacobian | e@(jacobianShape ..) => s!"Jacobian computation failed: {e.detail}"
  | e@jacobianNotFinite | e@residualNotFinite => s!"Numerical instability: {e.detail}"
  | e@(selfLoop _) | e@(noise _) | e@(.tolerance _) | e@(linear _) =>
    s!"Invalid parameter values: {e.detail}"

end FactorError

namespace KeyUse

def text : KeyUse → String
  | named context => context
  | retraction => "retracting config by delta"
  | localCoords => "computing local coordinates"
  | factor index kind => s!"referenced by factor #{index} ({kind.text})"

end KeyUse

namespace ProblemError

def message : ProblemError Float → String
  | missingKey k use => s!"Key {k} is missing from the config ({use.text})"
  | noise cause => cause.fullMessage
  | ordering cause => s!"Invalid ordering: {cause.message}"
  | .key cause => s!"Invalid key: {cause.message}"
  | factor index cause => s!"Factor #{index} failed: {cause.message}"
  | group cause => s!"Manifold error: {cause.message}"

def sources : ProblemError Float → List String
  | factor _ cause => [cause.message]
  | group cause => [cause.message]
  | _ => []

end ProblemError

namespace ParameterError

def message : ParameterError Float → String
  | initialLambda value => s!"initial_lambda must be finite and non-negative, got {plain value}"
  | increase factor => s!"lambda_increase_factor must be greater than 1, got {plain factor}"
  | decrease factor => s!"lambda_decrease_factor must be in (0, 1], got {plain factor}"
  | minRejected value => s!"min_rejected_lambda must be positive, got {plain value}"
  | noAttempts => "max_lambda_attempts must be at least 1"
  | .lambda value => s!"lambda must be finite and non-negative, got {plain value}"
  | thresholds relative absolute =>
    "convergence thresholds must be finite and non-negative, got " ++
      s!"relative {plain relative}, absolute {plain absolute}"
  | verbosity name => s!"unknown verbosity '{name}'"

end ParameterError

namespace OptimizerError

def initialDetail (error : Float) : String := s!"initial error is {plain error}"

def stepDetail (error : Float) : String := s!"error after Gauss-Newton step is {plain error}"

def message : OptimizerError Float → String
  | emptyProblem => "Problem has no factors to optimize"
  | parameters cause => s!"Invalid optimization parameters: {cause.message}"
  | stalled attempts lambda error => s!"No error decrease after {attempts} damping attempts " ++
      s!"(lambda {scientific 3 lambda}, error {scientific 6 error})"
  | initialError error => s!"Numerical instability detected: {initialDetail error}"
  | stepError error => s!"Numerical instability detected: {stepDetail error}"
  | problem cause => cause.message
  | linear cause => s!"Linear algebra error: {cause.message}"

def sources : OptimizerError Float → List String
  | problem cause => cause.sources
  | linear cause => [cause.message]
  | _ => []

end OptimizerError

namespace Failure

def message : Failure Float → String
  | problem cause => cause.message
  | factor cause => cause.message
  | optimizer cause => cause.message
  | linear cause => cause.message
  | group cause => cause.message

def sources : Failure Float → List String
  | problem cause => cause.sources
  | optimizer cause => cause.sources
  | _ => []

/-- The messages of a failure and of those it wraps, one a line. -/
def chain (f : Failure Float) : String :=
  "\n".intercalate (f.message :: f.sources.map ("  → " ++ ·))

def compactChain (f : Failure Float) : String := " → ".intercalate (f.message :: f.sources)

end Failure

end Smoothing
