import Smoothing.Event

/-!
# Widths and damping of a linear problem

The widths of the variables of a linear problem, which have to agree between its factors, and the
damped problem, which has a term `√λ · x_k = 0` for every variable.
-/

namespace Smoothing

abbrev LinearRun (α β : Type) := Logged (Event α) (LinearError α) β

def LinearError.stop {α β : Type} (e : LinearError α) : LinearRun α β :=
  Logged.failWith .linear e

theorem LinearError.outcome_stop_ne_ok {α β : Type} {e : LinearError α} {b : β} :
    ¬ (e.stop : LinearRun α β).outcome = .ok b := by
  simp [stop, Logged.failWith]

namespace GaussianGraph

variable {α : Type}

def noteWidths (dims : KeyMap Nat) : List (Key × Mat α) → LinearRun α (KeyMap Nat)
  | [] => pure dims
  | (k, m) :: ts =>
    match dims.get? k with
    | none => noteWidths (dims.insert k m.cols) ts
    | some w =>
      if w = m.cols then noteWidths dims ts
      else (LinearError.sizes (.columns k w m.cols)).stop

def dims (g : GaussianGraph α) : LinearRun α (KeyMap Nat) :=
  noteWidths KeyMap.empty (g.factors.flatMap GaussianFactor.terms)

variable [Scalar α]

/-- The problem with a damping term for every variable. With `λ = 0` it is the problem itself. -/
def damped (g : GaussianGraph α) (lambda : α) : LinearRun α (GaussianGraph α) :=
  if lambda == 0 then pure g
  else if !Scalar.isFinite lambda || decide (lambda < 0) then
    (LinearError.sizes (.damping lambda)).stop
  else do
    let dims ← g.dims
    return ⟨g.factors ++ dims.entries.map fun e => GaussianFactor.damping e.1 e.2 lambda⟩

end GaussianGraph

end Smoothing
