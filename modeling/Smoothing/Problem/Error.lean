import Smoothing.Key.Parse
import Smoothing.Linear.Error
import Smoothing.Value

/-!
# Failures of a problem

Why a noise model, an ordering, a factor or a configuration is refused, and why a factor cannot be
evaluated.
-/

namespace Smoothing

inductive NoiseError (α : Type) where
  | sigma (sigma : α)
  | zeroDimension
  | notSquare (rows cols : Nat)
  | notFinite
  | notSymmetric (asymmetry : α)
  | notDefinite
  | notInvertible
deriving Repr

inductive OrderError where
  | repeated (key : Key)
  /-- A variable of the graph is not in the ordering. -/
  | missing (key : Key)
  /-- A key of the ordering is no variable of the graph. -/
  | extra (key : Key)
deriving Repr

inductive FactorKind where
  | prior
  | between
  | function
  | equality
deriving DecidableEq, Repr

def FactorKind.text : FactorKind → String
  | .prior => "PriorFactor"
  | .between => "BetweenFactor"
  | .function => "FunctionFactor"
  | .equality => "EqualityFactor"

inductive FactorError (α : Type) where
  | dimension (expected actual : Nat)
  /-- The variable is in another group than the factor's value. -/
  | manifold (key : Key) (expected actual : Manifold)
  | missingKey (key : Key)
  | noJacobian
  | jacobianShape (rows cols actualRows actualCols : Nat)
  | jacobianNotFinite
  | residualNotFinite
  | selfLoop (key : Key)
  | noise (cause : NoiseError α)
  | tolerance (tolerance : α)
  | linear (cause : LinearError α)
  | infeasible (key : Key) (violation : α)

inductive KeyUse where
  | named (context : String)
  | retraction
  | localCoords
  | factor (index : Nat) (kind : FactorKind)
deriving DecidableEq, Repr

inductive ProblemError (α : Type) where
  | missingKey (key : Key) (use : KeyUse)
  | noise (cause : NoiseError α)
  | ordering (cause : OrderError)
  | key (cause : KeyError)
  | factor (index : Nat) (cause : FactorError α)
  | group (cause : GroupError)

end Smoothing
