import Smoothing.Factor

/-!
# Building factors

A factor is refused if its noise model has another dimension than its measurement, if it measures a
variable against itself, or if its tolerance is no tolerance. Refusals are reported.
-/

namespace Smoothing

variable {α : Type}

abbrev FactorBuild (α β : Type) := Logged (Event α) (FactorError α) β

def FactorError.refuse {β : Type} (e : FactorError α) : FactorBuild α β :=
  Logged.failWith Failure.factor e

def NoiseModel.checkFor (noise : NoiseModel α) (dim : Nat) : FactorBuild α Unit :=
  if noise.dim ≠ dim then (FactorError.dimension dim noise.dim).refuse else pure ()

def PriorFactor.build (key : Key) (prior : Value α) (noise : NoiseModel α) :
    FactorBuild α (PriorFactor α) := do
  noise.checkFor prior.dim
  return ⟨key, prior, noise⟩

def BetweenFactor.build (first second : Key) (measured : Value α) (noise : NoiseModel α) :
    FactorBuild α (BetweenFactor α) := do
  if first = second then (FactorError.selfLoop first).refuse
  else
    noise.checkFor measured.dim
    return ⟨first, second, measured, noise⟩

def FunctionFactor.build (key : Key) (measured : Vec α) (noise : NoiseModel α)
    (measurement : Measurement α) : FactorBuild α (FunctionFactor α) := do
  noise.checkFor measured.size
  return ⟨key, measured, noise, measurement⟩

namespace EqualityFactor

variable [Scalar α]

def defaultTolerance : α := 1e-9

/-- The standard deviation that gives a constraint its weight. -/
def constraintSigma : α := 1e-6

def build (key : Key) (feasible : Value α) : FactorBuild α (EqualityFactor α) :=
  let noise : NoiseModel.Build α (NoiseModel α) :=
    NoiseModel.isotropic feasible.dim constraintSigma
  match noise.outcome with
  | .ok n => ⟨noise.events, .ok ⟨key, feasible, n, defaultTolerance, false⟩⟩
  | .error .sizes => ⟨noise.events, .error .sizes⟩
  | .error (.cause e) =>
    ⟨noise.events ++ [.failed (.factor (.noise e))], .error (.cause (.noise e))⟩

/-- The constraint with another tolerance, which has to be finite and not negative. -/
def withTolerance (f : EqualityFactor α) (tolerance : α) : FactorBuild α (EqualityFactor α) :=
  if Scalar.isFinite tolerance && decide (0 ≤ tolerance) then
    return { f with tolerance := tolerance }
  else (FactorError.tolerance tolerance).refuse

def withAllowError (f : EqualityFactor α) (allow : Bool) : EqualityFactor α :=
  { f with allowError := allow }

end EqualityFactor

/-- The factor with residual `Σ A_i x_i - z`, over vectors `x_i`; values that are no vectors are
passed over. Its Jacobian is `[A_1 | A_2 | …]`, or none if the flag is not set. -/
def CustomFactor.affine [Scalar α] (keys : List Key) (blocks : List (Mat α)) (z : Vec α)
    (noise : NoiseModel α) (hasJacobian : Bool) : CustomFactor α where
  kind := .function
  keys := keys
  noise := noise
  measured := .rn z
  evaluate values wantJacobian := do
    let residual ← (List.zip blocks values).foldlM (fun r bx => match bx.2 with
      | .rn x =>
        if bx.1.cols = x.size ∧ bx.1.height = z.size then .ok (r + bx.1.mulVec x)
        else .error .sizes
      | _ => .ok r) (-z)
    if wantJacobian && hasJacobian then
      if blocks.all (·.height == z.size) then
        let jacobian := blocks.foldl Mat.beside (Mat.zero z.size 0)
        .ok ⟨residual, some jacobian⟩
      else .error .sizes
    else .ok ⟨residual, none⟩

end Smoothing
