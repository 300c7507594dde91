import Smoothing.Event
import Smoothing.Mat.Definite

/-!
# Noise models

A Gaussian noise model is stored as the square root `R` of its information: `RᵀR = Σ⁻¹`. Whitening a
residual `e` gives `R e`, whose squared norm is the squared Mahalanobis distance `eᵀ Σ⁻¹ e`.
-/

namespace Smoothing

inductive NoiseKind where
  | unit
  | isotropic
  | diagonal
  | gaussian
deriving DecidableEq, Repr

def NoiseKind.text : NoiseKind → String
  | .unit => "Unit"
  | .isotropic => "Isotropic"
  | .diagonal => "Diagonal"
  | .gaussian => "Gaussian"

structure NoiseModel (α : Type) where
  kind : NoiseKind
  sqrtInfo : Mat α
deriving BEq

namespace NoiseModel

variable {α : Type}

def dim (n : NoiseModel α) : Nat := n.sqrtInfo.height

abbrev Build (α β : Type) := Logged (Event α) (NoiseError α) β

def refuse {β : Type} (e : NoiseError α) : Build α β :=
  Logged.failWith (fun e => .problem (.noise e)) e

variable [Scalar α]

def checkDim (n : Nat) : Build α Unit := if n = 0 then refuse .zeroDimension else pure ()

def checkSigma (σ : α) : Build α Unit :=
  if !Scalar.isFinite σ || decide (σ ≤ 0) then refuse (.sigma σ) else pure ()

/-- Residuals are used as they are. -/
def unit (n : Nat) : Build α (NoiseModel α) := do
  checkDim n
  return ⟨.unit, Mat.identity n⟩

def isotropic (n : Nat) (σ : α) : Build α (NoiseModel α) := do
  checkDim n
  checkSigma σ
  return ⟨.isotropic, (Mat.identity n).map (· / σ)⟩

def diagonal (σs : List α) : Build α (NoiseModel α) := do
  checkDim σs.length
  σs.forM checkSigma
  return ⟨.diagonal, Mat.diagonal ⟨σs.map (1 / ·)⟩⟩

def asymmetry (cov : Mat α) : α := (cov - cov.transpose).amax

/-- A full covariance, which has to be square, finite, symmetric and positive definite. The square
root of the information is the inverse of the lower triangular factor. -/
def ofCovariance (cov : Mat α) : Build α (NoiseModel α) := do
  let n := cov.height
  checkDim n
  if cov.cols ≠ n then refuse (.notSquare n cov.cols)
  else if !cov.allFinite then refuse .notFinite
  else if 1e-9 * Scalar.max cov.amax 1 < asymmetry cov then refuse (.notSymmetric (asymmetry cov))
  else match cov.whitening with
    | .notDefinite => refuse .notDefinite
    | .notInvertible => refuse .notInvertible
    | .inverse r => return ⟨.gaussian, r⟩

def whiten (n : NoiseModel α) (e : Vec α) : Vec α := n.sqrtInfo.mulVec e

def whitenJacobian (n : NoiseModel α) (h : Mat α) : Mat α := n.sqrtInfo * h

def distance (n : NoiseModel α) (e : Vec α) : α := 0.5 * (n.whiten e).normSq

def whiten? (n : NoiseModel α) (e : Vec α) : Option (Vec α) :=
  if e.size = n.sqrtInfo.cols then some (n.whiten e) else none

def whitenJacobian? (n : NoiseModel α) (h : Mat α) : Option (Mat α) :=
  if h.height = n.sqrtInfo.cols then some (n.whitenJacobian h) else none

def distance? (n : NoiseModel α) (e : Vec α) : Option α :=
  if e.size = n.sqrtInfo.cols then some (n.distance e) else none

def isApprox (n m : NoiseModel α) (tolerance : α) : Bool :=
  n.dim == m.dim && decide ((n.sqrtInfo - m.sqrtInfo).amax ≤ tolerance)

end NoiseModel

end Smoothing
