import Smoothing.Linear.Elimination
import Smoothing.Linear.NormalEquations

/-!
# Linear solvers

A linear solver turns a linear problem and an order of its variables into an update. The direct
solvers are elimination and the normal equations.
-/

namespace Smoothing

structure LinearSolver (α : Type) where
  name : String
  solve : GaussianGraph α → EliminationOrder → LinearRun α (BlockVector α)

namespace DirectMethod

variable {α : Type} [Scalar α]

def solverName (m : DirectMethod) : String := s!"Factorization ({m.text})"

def solve (m : DirectMethod) (g : GaussianGraph α) (o : EliminationOrder) :
    LinearRun α (BlockVector α) := do
  Logged.report (.directSolve m g.size o.size)
  match m with
  | .qr => g.optimize o
  | .cholesky => NormalEquations.solve g o

def solver (m : DirectMethod) : LinearSolver α := ⟨m.solverName, m.solve⟩

end DirectMethod

end Smoothing
