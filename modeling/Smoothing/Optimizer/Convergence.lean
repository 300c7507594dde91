import Smoothing.Optimizer

/-!
# Convergence

A run ends when the error before a step is zero, when the step lowers the error by less than an
absolute threshold, or by less than a relative one. A step that raises the error ends the run as
well.
-/

namespace Smoothing

variable {α : Type} [Scalar α]

structure Thresholds (α : Type) where
  relative : α
  absolute : α
deriving Repr

namespace Thresholds

def validate (t : Thresholds α) : OptimizerRun α Unit :=
  if Params.isDamping t.relative && Params.isDamping t.absolute then pure ()
  else (ParameterError.thresholds t.relative t.absolute).stop

/-- Whether a step from one error to another ends a run. -/
def met (t : Thresholds α) (current next : α) : Bool :=
  current == 0 || decide (current - next < t.absolute) ||
    decide ((current - next) / current < t.relative)

def check (t : Thresholds α) (current next : α) (v : Verbosity) : OptimizerRun α Bool :=
  if current == 0 then do
    Logged.reportIf (.error ≤ v) .errorIsZero
    return true
  else do
    let decrease := current - next
    Logged.reportIf (.error ≤ v) (.errorChange current next decrease (decrease / current))
    Logged.reportIf (decide (current < next)) (.errorIncreased current next)
    return t.met current next

theorem outcome_check (t : Thresholds α) (current next : α) (v : Verbosity) :
    (t.check current next v).outcome = .ok (t.met current next) := by
  unfold check met
  split
  · next h =>
    rw [Logged.outcome_bind_ok _ (Logged.outcome_reportIf _ _)]
    simp [h]
  · next h =>
    rw [Logged.outcome_bind_ok _ (Logged.outcome_reportIf _ _),
      Logged.outcome_bind_ok _ (Logged.outcome_reportIf _ _)]
    simp [h]

end Thresholds

end Smoothing
