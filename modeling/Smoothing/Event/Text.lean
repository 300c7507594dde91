import Smoothing.Failure.Message
import Smoothing.Linear.Text
import Smoothing.Optimizer.Text

/-!
# Events as text

The text of an event, and the name of the part of the solver that reports it.
-/

namespace Smoothing

open Decimal

def Level.text : Level → String
  | .error => "ERROR"
  | .warn => "WARN"
  | .info => "INFO"
  | .debug => "DEBUG"
  | .trace => "TRACE"

def Method.text : Method → String
  | .gaussNewton => "Gauss-Newton"
  | .levenbergMarquardt => "Levenberg-Marquardt"

inductive Scope where
  | problem
  | factors
  | linear
  | elimination
  | factorization
  | subgraph
  | optimizer
  | undamped
  | damped
  | command
deriving DecidableEq, Repr

def Scope.text : Scope → String
  | .problem => "sam_solver::core"
  | .factors => "sam_solver::factors"
  | .linear => "sam_solver::linalg"
  | .elimination => "sam_solver::linalg::elimination"
  | .factorization => "sam_solver::linalg::factorization"
  | .subgraph => "sam_solver::linalg::subgraph"
  | .optimizer => "sam_solver::optimizer"
  | .undamped => "sam_solver::optimizer::gauss_newton"
  | .damped => "sam_solver::optimizer::levenberg_marquardt"
  | .command => "optimize_pose_graph"

def Method.scope : Method → Scope
  | .gaussNewton => .undamped
  | .levenbergMarquardt => .damped

/-- The part that linearizes a problem and solves it for a method. -/
def Method.solveScope : Method → Scope
  | .gaussNewton => .optimizer
  | .levenbergMarquardt => .damped

namespace Failure

def scope {α : Type} : Failure α → Scope
  | problem _ | group _ => .problem
  | factor _ => .factors
  | optimizer _ => .optimizer
  | linear _ => .linear

end Failure

namespace Event

def scope {α : Type} : Event α → Scope
  | failed f => f.scope
  | pivotRefused _ => .linear
  | negligiblePivot _ _ => .elimination
  | directSolve _ _ _ => .factorization
  | subgraphChosen _ _ | gradientStep _ _ | gradientConverged _ _ | gradientCapped _ _ => .subgraph
  | configuration _ | errorIsZero | errorChange _ _ _ _ | errorIncreased _ _ | config _ =>
    .optimizer
  | linearized method _ | update method _ => method.solveScope
  | started method _ _ | finished method _ => method.scope
  | attempt _ _ | dampedSystem _ | candidateDelta _ | candidateConfig _ | trial _ _ _
  | accepted _ | solveFailed _ _ | runStalled _ _ => .damped

def text : Event Float → String
  | failed f => f.message
  | pivotRefused _ => LinearError.message .singular
  | negligiblePivot key scale => s!"pivot of {key} is negligible (scale {scientific 3 scale})"
  | directSolve method factors size =>
    s!"{method.text} solve: {factors} factors, {size} variables"
  | subgraphChosen chosen factors =>
    s!"subgraph preconditioner: {chosen} of {factors} factors in the subgraph"
  | gradientStep iteration residual =>
    s!"PCG iteration {iteration}: residual {scientific 6 residual}"
  | gradientConverged iterations residual =>
    s!"PCG converged after {iterations} iterations (residual {scientific 3 residual})"
  | gradientCapped iterations residual =>
    s!"PCG hit {iterations} iterations (residual {scientific 3 residual}); using best iterate"
  | configuration params => params.text
  | errorIsZero => "converged: error is exactly zero"
  | errorChange current next decrease relative =>
    s!"error {scientific 6 current} -> {scientific 6 next} " ++
      s!"(absolute decrease {scientific 3 decrease}, relative {scientific 3 relative})"
  | errorIncreased current next =>
    s!"error increased from {scientific 6 current} to {scientific 6 next}"
  | linearized _ graph => s!"linearized system:\n{graph.text}"
  | update _ delta => s!"delta:\n{BlockVector.text delta}"
  | config c => s!"config:\n{Config.text c}"
  | started method error lambda =>
    let damping := match method with
      | .gaussNewton => ""
      | .levenbergMarquardt => s!", lambda {scientific 3 lambda}"
    s!"{method.text}: initial error {scientific 6 error}{damping}"
  | finished _ summary => summary.text
  | attempt number lambda => s!"attempt {number}: trying lambda {scientific 3 lambda}"
  | dampedSystem graph => s!"damped system:\n{graph.text}"
  | candidateDelta delta => s!"candidate delta:\n{BlockVector.text delta}"
  | candidateConfig c => s!"candidate config:\n{Config.text c}"
  | trial lambda current next =>
    s!"lambda {scientific 3 lambda}: error {scientific 6 current} -> {scientific 6 next}"
  | accepted lambda => s!"accepted step with lambda {scientific 3 lambda}"
  | solveFailed lambda cause =>
    s!"linear solve failed at lambda {scientific 3 lambda}: {cause.message}"
  | runStalled attempts lambda =>
    s!"stalled after {attempts} attempts (lambda {scientific 3 lambda})"

end Event

end Smoothing
