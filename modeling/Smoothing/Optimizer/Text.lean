import Smoothing.Optimizer
import Smoothing.Text.Quoted
import Smoothing.Value.Text

/-!
# Optimizers and their runs as text
-/

namespace Smoothing

open Text Decimal

namespace Params

def text (p : Params Float) : String := "\n".intercalate [
  "Optimizer configuration:",
  s!"  max_iterations: {p.maxIterations}",
  s!"  initial_lambda: {scientific 3 p.initialLambda}",
  s!"  lambda factors: x{plain p.increase} / x{plain p.decrease}",
  s!"  max_lambda_attempts: {p.maxAttempts}",
  s!"  min_rejected_lambda: {scientific 3 p.minRejected}",
  s!"  verbosity: {p.verbosity.text}"]

end Params

namespace Summary

def reduction (s : Summary Float) : Float := s.initialError - s.finalError

def percentage (s : Summary Float) : Float :=
  100.0 * s.reduction / Scalar.max s.initialError 1e-12

/-- The outcome of a run. No time is measured, so a dash stands for it. -/
def text (s : Summary Float) : String := listing "Optimization Result" [
  s!"Status:     {s.status.text}",
  s!"Iterations: {s.iterations}",
  s!"Initial:    {scientific 6 s.initialError}",
  s!"Final:      {scientific 6 s.finalError}",
  s!"Reduction:  {scientific 6 s.reduction} ({fixed 2 s.percentage}%)",
  "Time:       -"]

end Summary

namespace Optimizer

def text (s : Optimizer Float) : String :=
  let fields := commas [
    s!"factors: {s.graph.size}",
    s!"variables: {s.config.size}",
    s!"solver: {quoted s.solver.name}",
    s!"lambda: {pointed s.lambda}",
    s!"error: {pointed s.error}"]
  "NonlinearOptimizer \x7b " ++ fields ++ " \x7d"

end Optimizer

end Smoothing
