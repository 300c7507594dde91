import Smoothing.Mat

/-!
# Lie groups

The groups a variable can live on are given by their operations and by their tangent coordinates. An
update `δ` of an element `x` is `x ⊕ δ = x ∘ exp δ`; the difference of two elements is
`y ⊖ x = log (x⁻¹ ∘ y)`. Jacobians are with respect to such updates: the Jacobian of `f` at `x`
takes a small update of `x` to the update it causes in `f x`.
-/

namespace Smoothing

class LieStructure (α : outParam Type) [Scalar α] (G : Type) (T : outParam Type) where
  inverse : G → G
  compose : G → G → G
  exp : T → G
  log : G → T
  /-- The matrix that moves a tangent vector past an element: `x ∘ exp τ = exp (Ad x · τ) ∘ x`. -/
  adjoint : G → Mat α
  dim : G → Nat
  rightJacobian : T → Mat α
  /-- The Jacobian of `exp` with respect to updates from the left. -/
  leftJacobian : T → Mat α
  rightJacobianInv : T → Mat α
  /-- The Jacobian of `log` with respect to updates from the left. -/
  leftJacobianInv : T → Mat α
  coords : T → Vec α
  ofCoords : Vec α → T
  length : T → α
  /-- The element brought back to the group after rounding errors. -/
  normalize : G → G
  isValid : G → α → Bool

namespace LieStructure

variable {α G T : Type} [Scalar α] [LieStructure α G T]

/-- The update `x ⊕ τ`. -/
def plus (x : G) (τ : T) : G := compose x (exp τ)

/-- The difference `y ⊖ x`. -/
def minus (y x : G) : T := log (compose (inverse x) y)

/-- The element that leads from `x` to `y`. -/
def between (x y : G) : G := compose (inverse x) y

def isZero (τ : T) (tolerance : α) : Bool := decide (length G τ < tolerance)

def isNear (τ σ : T) (tolerance : α) : Bool :=
  (coords G τ).size == (coords G σ).size &&
    isZero (G := G) (ofCoords (G := G) (coords G τ - coords G σ)) tolerance

def isApprox (x y : G) (tolerance : α) : Bool :=
  dim x == dim y && isZero (G := G) (minus x y) tolerance

/-! ### Operations on elements whose dimensions may differ -/

def compose? (x y : G) : Option G := if dim x = dim y then some (compose x y) else none

def between? (x y : G) : Option G := if dim x = dim y then some (between x y) else none

def plus? (x : G) (τ : T) : Option G :=
  if dim x = (coords G τ).size then some (plus x τ) else none

def minus? (y x : G) : Option T := if dim y = dim x then some (minus y x) else none

/-! ### Jacobians -/

def jacobianIdentity (x : G) : Mat α := Mat.identity (dim x)

def inverseJacobian (x : G) : Mat α := -adjoint x

/-- The Jacobian of `x ∘ y` in `x`. -/
def composeJacobian (_x y : G) : Mat α := adjoint (inverse y)

/-- The Jacobian of `x⁻¹ ∘ y` in `x`. -/
def betweenJacobian (x y : G) : Mat α := -adjoint (inverse (between x y))

def logJacobian (x : G) : Mat α := rightJacobianInv G (log x)

/-- The Jacobian of `y ⊖ x` in `y`. -/
def minusJacobian (y x : G) : Mat α := rightJacobianInv G (minus y x)

/-- The Jacobian of `y ⊖ x` in `x`. -/
def minusJacobianBase (y x : G) : Mat α := -leftJacobianInv G (minus y x)

end LieStructure

end Smoothing
