import Smoothing.Lie.Basic

/-!
# Euclidean space

Vectors with addition. The tangent space is the space itself, and all Jacobians are identities.
-/

namespace Smoothing.Vec

variable {α : Type} [Scalar α]

instance : LieStructure α (Vec α) (Vec α) where
  inverse x := -x
  compose x y := x + y
  exp τ := τ
  log x := x
  adjoint x := Mat.identity x.size
  dim := size
  rightJacobian τ := Mat.identity τ.size
  leftJacobian τ := Mat.identity τ.size
  rightJacobianInv τ := Mat.identity τ.size
  leftJacobianInv τ := Mat.identity τ.size
  coords τ := τ
  ofCoords v := v
  length := norm
  normalize x := x
  isValid x _ := x.allFinite

end Smoothing.Vec
