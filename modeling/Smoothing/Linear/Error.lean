import Smoothing.BlockVector

/-!
# Failures of linear solves

Why a linear system cannot be solved. Failures that come from the numbers are told apart from those
that come from a malformed system: more damping can mend the former.
-/

namespace Smoothing

inductive SizeConflict (α : Type) where
  /-- A factor has not one block for each key. -/
  | keyCount (keys blocks : Nat)
  | blockRows (key : Key) (rows rhs : Nat)
  | repeatedKey
  | columns (key : Key) (first other : Nat)
  | damping (lambda : α)
  /-- The system has fewer factors than the subgraph was built for. -/
  | maskLength (factors mask : Nat)
deriving Repr

inductive OrderConflict where
  /-- A factor mentions variables the ordering never reaches. -/
  | unreached (keys : List Key)
  /-- A variable of the system is not in the ordering. -/
  | uncovered (key : Key)
deriving Repr

inductive LinearError (α : Type) where
  /-- Elimination does not determine a variable. -/
  | degenerate (key : Key)
  /-- Conjugate gradients met a direction without positive curvature. -/
  | lostDefiniteness (curvature : α)
  /-- A pivot of the normal equations is not positive, or the solution is not finite. -/
  | singular
  /-- Conjugate gradients stopped at the iteration cap; the best solution so far is kept. -/
  | notConverged (iterations : Nat) (residual : α) (best : BlockVector α)
  | missingKey (key : Key)
  | sizes (conflict : SizeConflict α)
  | ordering (conflict : OrderConflict)

/-- Whether the failure comes from the numbers, so that damping may help. -/
def LinearError.isNumerical {α : Type} : LinearError α → Bool
  | .degenerate _ | .lostDefiniteness _ | .singular | .notConverged _ _ _ => true
  | .missingKey _ | .sizes _ | .ordering _ => false

end Smoothing
