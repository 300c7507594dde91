import Smoothing.Lie.Basic

/-!
# Rotations of the plane

A rotation is stored as the complex number of length one it multiplies by: the cosine and the sine
of its angle. A tangent vector is an angle.
-/

namespace Smoothing

structure Vec2 (α : Type) where
  x : α
  y : α
deriving Repr, BEq

/-- A rotation of the plane, as a complex number. -/
structure SO2 (α : Type) where
  re : α
  im : α
deriving Repr, BEq

namespace SO2

variable {α : Type} [Scalar α]

def identity : SO2 α := ⟨1, 0⟩

def ofAngle (θ : α) : SO2 α := ⟨Scalar.cos θ, Scalar.sin θ⟩

def angle (r : SO2 α) : α := Scalar.atan2 r.im r.re

/-- The squared length of the stored number, one for a rotation. -/
def normSq (r : SO2 α) : α := r.re * r.re + r.im * r.im

def norm (r : SO2 α) : α := Scalar.sqrt r.normSq

def inverse (r : SO2 α) : SO2 α := ⟨r.re, -r.im⟩

def compose (r s : SO2 α) : SO2 α := ⟨r.re * s.re - r.im * s.im, r.re * s.im + r.im * s.re⟩

def normalize (r : SO2 α) : SO2 α := ⟨r.re / r.norm, r.im / r.norm⟩

def rotate (r : SO2 α) (p : Vec2 α) : Vec2 α :=
  ⟨r.re * p.x - r.im * p.y, r.im * p.x + r.re * p.y⟩

def rotationMatrix (r : SO2 α) : Mat α :=
  ⟨2, [⟨[r.re, -r.im]⟩, ⟨[r.im, r.re]⟩], by simp⟩

def isUnit (r : SO2 α) (tolerance : α) : Bool :=
  decide (Scalar.abs (Scalar.hypot r.re r.im - 1) < tolerance)

instance : LieStructure α (SO2 α) α where
  inverse := inverse
  compose := compose
  exp := ofAngle
  log := angle
  adjoint _ := Mat.identity 1
  dim _ := 1
  rightJacobian _ := Mat.identity 1
  leftJacobian _ := Mat.identity 1
  rightJacobianInv _ := Mat.identity 1
  leftJacobianInv _ := Mat.identity 1
  coords θ := ⟨[θ]⟩
  ofCoords v := v.get 0
  length θ := Scalar.abs θ
  normalize := normalize
  isValid := isUnit

end SO2

end Smoothing
