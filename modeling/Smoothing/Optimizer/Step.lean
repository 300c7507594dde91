import Smoothing.Optimizer

/-!
# Steps

An undamped step solves the linearized problem and applies the update. A damped step tries dampings,
each larger than the one before, until an update does not raise the error; the damping of the next
step is then smaller than the one that was accepted. A damping under which the linear problem cannot
be solved for numerical reasons counts as tried.
-/

namespace Smoothing.Optimizer

variable {α : Type} [Scalar α]

/-! ### Undamped steps -/

def step (s : Optimizer α) (v : Verbosity) : OptimizerRun α (Optimizer α) := do
  let δ ← s.update v
  let config ← s.moved δ
  let error ← s.errorAt config
  if !Scalar.isFinite error then (OptimizerError.stepError error).stop
  else
    let next := s.advance config error s.lambda
    next.reportConfig v
    return next

/-! ### Damped steps -/

/-- Whether an error may follow the current one in a damped step. -/
def accepts (s : Optimizer α) (error : α) : Bool :=
  Scalar.isFinite error && decide (error ≤ s.error)

def raised (s : Optimizer α) (lambda : α) : α :=
  Scalar.max (lambda * s.params.increase) s.params.minRejected

/-- The state after an update, unless the update raises the error. -/
def tryUpdate (s : Optimizer α) (v : Verbosity) (lambda : α) (δ : BlockVector α) :
    OptimizerRun α (Option (Optimizer α)) := do
  Logged.reportIf (.tryDelta ≤ v) (.candidateDelta δ)
  let config ← s.moved δ
  Logged.reportIf (.tryConfig ≤ v) (.candidateConfig config)
  let error ← s.errorAt config
  Logged.reportIf (.tryLambda ≤ v) (.trial lambda s.error error)
  if s.accepts error then do
    Logged.reportIf (.lambda ≤ v) (.accepted lambda)
    Logged.reportIf (.delta ≤ v) (.update .levenbergMarquardt δ)
    let next := s.advance config error (lambda * s.params.decrease)
    next.reportConfig v
    return some next
  else return none

/-- The state after a step with one damping, unless it is rejected. -/
def tryLambda (s : Optimizer α) (linear : GaussianGraph α) (v : Verbosity) (number : Nat)
    (lambda : α) : OptimizerRun α (Option (Optimizer α)) := do
  Logged.reportIf (.tryLambda ≤ v) (.attempt number lambda)
  let damped ← (linear.damped lambda).mapCause .linear
  Logged.reportIf (.damped ≤ v) (.dampedSystem damped)
  match ← (s.solver.solve damped s.ordering).attempt with
  | .ok δ => s.tryUpdate v lambda δ
  | .error .sizes => Logged.sizes
  | .error (.cause e) =>
    if e.isNumerical then do
      Logged.report (.solveFailed lambda e)
      return none
    else Logged.fail (.linear e)

/-- Tries at most `n` dampings; `number` and `lambda` belong to the next one, `last` was tried
before. -/
def search (s : Optimizer α) (linear : GaussianGraph α) (v : Verbosity) :
    Nat → Nat → α → α → OptimizerRun α (Optimizer α)
  | 0, _, _, last => (OptimizerError.stalled s.params.maxAttempts last s.error).stop
  | n + 1, number, lambda, _ => do
    match ← s.tryLambda linear v number lambda with
    | some next => return next
    | none => search s linear v n (number + 1) (s.raised lambda) lambda

def dampedStep (s : Optimizer α) (v : Verbosity) : OptimizerRun α (Optimizer α) := do
  let linear ← s.linearize .levenbergMarquardt v
  s.search linear v s.params.maxAttempts 1 s.lambda s.lambda

end Smoothing.Optimizer
