import Smoothing.Lie.Rotation3

/-!
# Rigid motions of space

A motion is stored as a shift and a rotation. A tangent vector is `(ρ, θ)`, shift first. The
Jacobian of the exponential with respect to updates from the left is `[J, Q; 0, J]`, where `J` is
that of the rotations and, with `R = [ρ]` and `T = [θ]`,

`Q = R / 2 + B (T R + R T + T R T) - C (T² R + R T² - 3 T R T) - D (T R T² + T² R T)`.

The Jacobian with respect to updates from the right is the one from the left at `(-ρ, -θ)`.
-/

namespace Smoothing

structure SE3 (α : Type) where
  shift : Vec3 α
  rotation : SO3 α
deriving Repr

structure SE3.Tangent (α : Type) where
  ρ : Vec3 α
  θ : Vec3 α
deriving Repr, BEq

namespace SE3

variable {α : Type} [Scalar α]

instance : BEq (SE3 α) := ⟨fun g h => g.shift == h.shift && g.rotation == h.rotation⟩

def identity : SE3 α := ⟨Vec3.zero, SO3.identity⟩

def transform (g : SE3 α) (p : Vec3 α) : Vec3 α := g.rotation.rotate p + g.shift

def inverse (g : SE3 α) : SE3 α :=
  let r := g.rotation.inverse
  ⟨-r.rotate g.shift, r⟩

def compose (g h : SE3 α) : SE3 α :=
  ⟨g.transform h.shift, g.rotation.compose h.rotation⟩

def log (g : SE3 α) : Tangent α :=
  let θ := g.rotation.log
  ⟨(SO3.leftJacobianInv θ).mulVec g.shift, θ⟩

def adjoint (g : SE3 α) : Mat α :=
  let r := g.rotation.rotationMatrix
  Mat3.blockUpper r (g.shift.hat * r)

def isValid (g : SE3 α) (tolerance : α) : Bool :=
  g.rotation.isUnit tolerance && g.shift.allFinite

namespace Tangent

instance : Neg (Tangent α) := ⟨fun τ => ⟨-τ.ρ, -τ.θ⟩⟩

def exp (τ : Tangent α) : SE3 α := ⟨(SO3.leftJacobian τ.θ).mulVec τ.ρ, SO3.exp τ.θ⟩

/-- The coefficients `B`, `C` and `D`. The closed forms lose all digits for small angles, where the
first terms of the series are taken. -/
def coefficients (θsq : α) : α × α × α :=
  if 1e-4 < θsq then
    let t := Scalar.sqrt θsq
    let t3 := t * θsq
    let (s, cos) := (Scalar.sin t, Scalar.cos t)
    let c := (1 - θsq / 2.0 - cos) / (θsq * θsq)
    ((t - s) / t3, c, 0.5 * (c - 3.0 * (t - s - t3 / 6.0) / (t3 * θsq)))
  else
    (1 / 6.0 - θsq / 120.0, -1 / 24.0 + θsq / 720.0, -1 / 120.0)

def couplingBlock (ρ θ : Vec3 α) : Mat3 α :=
  let R := ρ.hat
  let T := θ.hat
  let (b, c, d) := coefficients θ.normSq
  let TR := T * R
  let RT := R * T
  let TRT := TR * T
  let TT := T * T
  R.scale 0.5 + (TR + RT + TRT).scale b - (TT * R + R * TT - TRT.scale 3.0).scale c
    - (TRT * T + T * TRT).scale d

def leftJacobian (τ : Tangent α) : Mat α :=
  Mat3.blockUpper (SO3.leftJacobian τ.θ) (couplingBlock τ.ρ τ.θ)

def leftJacobianInv (τ : Tangent α) : Mat α :=
  let inv := SO3.leftJacobianInv τ.θ
  Mat3.blockUpper inv (-inv * couplingBlock τ.ρ τ.θ * inv)

def coords (τ : Tangent α) : Vec α := ⟨τ.ρ.toList ++ τ.θ.toList⟩

end Tangent

instance : LieStructure α (SE3 α) (Tangent α) where
  inverse := inverse
  compose := compose
  exp := Tangent.exp
  log := log
  adjoint := adjoint
  dim _ := 6
  rightJacobian τ := (-τ).leftJacobian
  leftJacobian := Tangent.leftJacobian
  rightJacobianInv τ := (-τ).leftJacobianInv
  leftJacobianInv := Tangent.leftJacobianInv
  coords := Tangent.coords
  ofCoords v := ⟨⟨v.get 0, v.get 1, v.get 2⟩, ⟨v.get 3, v.get 4, v.get 5⟩⟩
  length τ := τ.coords.norm
  normalize g := ⟨g.shift, g.rotation.normalize⟩
  isValid := isValid

end SE3

end Smoothing
