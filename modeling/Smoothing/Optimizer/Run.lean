import Smoothing.Optimizer.Convergence
import Smoothing.Optimizer.Step

/-!
# Runs

A run repeats one kind of step until the thresholds are met, a damped step stalls, or the iteration
cap is reached. The last step is kept unless it raises the error.
-/

namespace Smoothing

variable {α : Type} [Scalar α]

structure Report (α : Type) where
  optimizer : Optimizer α
  status : Status
  /-- The number of steps, accepted ones for damped steps. -/
  iterations : Nat
  initialError : α

namespace Report

def finalError (r : Report α) : α := r.optimizer.error

def summary (r : Report α) : Summary α := ⟨r.status, r.iterations, r.initialError, r.finalError⟩

def converged (r : Report α) : Bool := r.status == .converged

end Report

namespace Optimizer

/-- The state to keep of two successive ones. -/
def better (s next : Optimizer α) : Optimizer α := if next.error ≤ s.error then next else s

/-- Repeats a step at most `n` times; `i` steps were made before. A step that gives no state has
stalled. -/
def loop (step : Optimizer α → OptimizerRun α (Option (Optimizer α))) (t : Thresholds α)
    (v : Verbosity) : Nat → Nat → Optimizer α → OptimizerRun α (Status × Nat × Optimizer α)
  | 0, i, s => return (.maxIterations, i, s)
  | n + 1, i, s => do
    match ← step s with
    | none => return (.stalled, i, s)
    | some next =>
      if ← t.check s.error next.error v then return (.converged, i + 1, s.better next)
      else loop step t v n (i + 1) next

def run (s : Optimizer α) (method : Method)
    (step : Optimizer α → OptimizerRun α (Option (Optimizer α))) (t : Thresholds α)
    (v : Verbosity) : OptimizerRun α (Report α) := do
  t.validate
  s.params.reportAll
  Logged.reportIf (.error ≤ v) (.started method s.error s.lambda)
  let (status, iterations, last) ← loop step t v s.params.maxIterations 0 s
  let report : Report α := ⟨last, status, iterations, s.error⟩
  Logged.reportIf (.error ≤ v) (.finished method report.summary)
  return report

def gaussNewton (s : Optimizer α) (t : Thresholds α) (v : Verbosity) : OptimizerRun α (Report α) :=
  s.run .gaussNewton (fun s => some <$> s.step v) t v

/-- A damped step, where stalling is no failure. -/
def dampedStep? (v : Verbosity) (s : Optimizer α) : OptimizerRun α (Option (Optimizer α)) := do
  match ← (s.dampedStep v).attempt with
  | .ok next => return some next
  | .error (.cause (.stalled attempts lambda _)) => do
    Logged.report (.runStalled attempts lambda)
    return none
  | .error stop => Logged.ofOutcome (.error stop)

def levenbergMarquardt (s : Optimizer α) (t : Thresholds α) (v : Verbosity) :
    OptimizerRun α (Report α) :=
  s.run .levenbergMarquardt (dampedStep? v) t v

end Optimizer

end Smoothing
