import Smoothing.Lie.Rotation2

/-!
# Rigid motions of the plane

A motion is stored as a shift and a rotation. A tangent vector is `(x, y, θ)`, shift first.
With `a = sin θ / θ` and `b = (1 - cos θ) / θ` the exponential shifts by `V (x, y)` for
`V = [a, -b; b, a]`. Near `θ = 0` the coefficients are given by the first terms of their series.
-/

namespace Smoothing

structure SE2 (α : Type) where
  x : α
  y : α
  rotation : SO2 α
deriving Repr, BEq

structure SE2.Tangent (α : Type) where
  x : α
  y : α
  θ : α
deriving Repr, BEq

namespace SE2

variable {α : Type} [Scalar α]

def identity : SE2 α := ⟨0, 0, SO2.identity⟩

/-- The motion to a position and heading. -/
def ofPose (x y θ : α) : SE2 α := ⟨x, y, SO2.ofAngle θ⟩

/-- The heading, in `(-π, π]`. -/
def angle (g : SE2 α) : α := g.rotation.angle

def shift (g : SE2 α) : Vec2 α := ⟨g.x, g.y⟩

def transform (g : SE2 α) (p : Vec2 α) : Vec2 α :=
  let q := g.rotation.rotate p
  ⟨q.x + g.x, q.y + g.y⟩

/-- Whether an angle, given by its square, is small enough for the series. -/
def isSmall (θsq : α) : Bool := decide (θsq < Scalar.epsilon)

/-- The coefficients `sin θ / θ` and `(1 - cos θ) / θ`. -/
def coefficients (θ : α) : α × α :=
  let θsq := θ * θ
  if isSmall θsq then (1 - θsq / 6.0, 0.5 * θ - θ * θsq / 24.0)
  else (Scalar.sin θ / θ, (1 - Scalar.cos θ) / θ)

def inverse (g : SE2 α) : SE2 α :=
  let r := g.rotation.inverse
  let t := r.rotate g.shift
  ⟨-t.x, -t.y, r⟩

def compose (g h : SE2 α) : SE2 α :=
  let t := g.transform h.shift
  ⟨t.x, t.y, g.rotation.compose h.rotation⟩

/-- The tangent coordinates of a motion: `V⁻¹` is applied to the shift. -/
def log (g : SE2 α) : Tangent α :=
  let θ := g.angle
  let (a, b) := coefficients θ
  let den := 1 / (a * a + b * b)
  ⟨den * (a * g.x + b * g.y), den * (-b * g.x + a * g.y), θ⟩

def adjoint (g : SE2 α) : Mat α :=
  ⟨3, [⟨[g.rotation.re, -g.rotation.im, g.y]⟩,
       ⟨[g.rotation.im, g.rotation.re, -g.x]⟩,
       ⟨[0, 0, 1]⟩], by simp⟩

def isValid (g : SE2 α) (tolerance : α) : Bool :=
  g.rotation.isUnit tolerance && Scalar.isFinite g.x && Scalar.isFinite g.y

namespace Tangent

def exp (τ : Tangent α) : SE2 α :=
  let (a, b) := coefficients τ.θ
  ⟨a * τ.x - b * τ.y, b * τ.x + a * τ.y, SO2.ofAngle τ.θ⟩

/-- The three rows of a Jacobian whose last row is that of the angle. -/
def jacobian (a b u c d v : α) : Mat α :=
  ⟨3, [⟨[a, b, u]⟩, ⟨[c, d, v]⟩, ⟨[0, 0, 1]⟩], by simp⟩

def rightJacobian (τ : Tangent α) : Mat α :=
  let (x, y, θ) := (τ.x, τ.y, τ.θ)
  let θsq := θ * θ
  let (a, b) := coefficients θ
  if isSmall θsq then
    jacobian a b (-y / 2.0 + θ * x / 6.0) (-b) a (x / 2.0 + θ * y / 6.0)
  else
    let (s, c) := (Scalar.sin θ, Scalar.cos θ)
    jacobian a b ((-y + θ * x + y * c - x * s) / θsq) (-b) a ((x + θ * y - x * c - y * s) / θsq)

def leftJacobian (τ : Tangent α) : Mat α :=
  let (x, y, θ) := (τ.x, τ.y, τ.θ)
  let θsq := θ * θ
  let (a, b) := coefficients θ
  if isSmall θsq then
    jacobian a (-b) (y / 2.0 + θ * x / 6.0) b a (-x / 2.0 + θ * y / 6.0)
  else
    let (s, c) := (Scalar.sin θ, Scalar.cos θ)
    jacobian a (-b) ((y + θ * x - y * c - x * s) / θsq) b a ((-x + θ * y + x * c - y * s) / θsq)

def rightJacobianInv (τ : Tangent α) : Mat α :=
  let (x, y, θ) := (τ.x, τ.y, τ.θ)
  let θsq := θ * θ
  if Scalar.epsilon < θsq then
    let (s, c) := (Scalar.sin θ, Scalar.cos θ)
    let a := θ * s
    let b := θ * c
    let d := -a / (2.0 * c - 2.0)
    let den := 2.0 * θ * (c - 1)
    jacobian d (-θ * 0.5) ((a * x + b * y - θ * y + 2.0 * x * c - 2.0 * x) / den)
      (θ * 0.5) d ((-b * x + a * y + θ * x + 2.0 * y * c - 2.0 * y) / den)
  else
    let d := 1 - θsq / 12.0
    jacobian d (-θ * 0.5) (y / 2.0 + θ * x / 12.0) (θ * 0.5) d (-x / 2.0 + θ * y / 12.0)

def leftJacobianInv (τ : Tangent α) : Mat α :=
  let (x, y, θ) := (τ.x, τ.y, τ.θ)
  let θsq := θ * θ
  if Scalar.epsilon < θsq then
    let (s, c) := (Scalar.sin θ, Scalar.cos θ)
    let a := θ * s
    let b := θ * c
    let d := -a / (2.0 * c - 2.0)
    let den := 2.0 * θ * (c - 1)
    jacobian d (θ * 0.5) ((a * x - b * y + θ * y + 2.0 * x * c - 2.0 * x) / den)
      (-θ * 0.5) d ((b * x + a * y - θ * x + 2.0 * y * c - 2.0 * y) / den)
  else
    let d := 1 - θsq / 12.0
    jacobian d (θ * 0.5) (-y / 2.0 + θ * x / 12.0) (-θ * 0.5) d (x / 2.0 + θ * y / 12.0)

def coords (τ : Tangent α) : Vec α := ⟨[τ.x, τ.y, τ.θ]⟩

end Tangent

instance : LieStructure α (SE2 α) (Tangent α) where
  inverse := inverse
  compose := compose
  exp := Tangent.exp
  log := log
  adjoint := adjoint
  dim _ := 3
  rightJacobian := Tangent.rightJacobian
  leftJacobian := Tangent.leftJacobian
  rightJacobianInv := Tangent.rightJacobianInv
  leftJacobianInv := Tangent.leftJacobianInv
  coords := Tangent.coords
  ofCoords v := ⟨v.get 0, v.get 1, v.get 2⟩
  length τ := τ.coords.norm
  normalize g := ⟨g.x, g.y, g.rotation.normalize⟩
  isValid := isValid

end SE2

end Smoothing
