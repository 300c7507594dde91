import Smoothing.Factor

/-!
# Evaluating factors

The residual of a factor at values of its variables, its error `½ ‖R e‖²` and its linearization:
with `A_j = R H_j` and `b = -R e` the whitened residual after a small update `δ` is `Σ A_j δ_j - b`.
-/

namespace Smoothing

variable {α : Type}

def FactorError.ofGroup (key : Key) : GroupError → FactorError α
  | .tangentDimension expected actual | .dimension expected actual => .dimension expected actual
  | .notFinite => .residualNotFinite
  | .manifold expected actual => .manifold key expected actual

variable [Scalar α]

/-- The deviation of a variable from a target, in tangent coordinates around the target. -/
def Value.deviation (key : Key) (target x : Value α) : Evaluated α (Vec α) :=
  match target.localCoords x with
  | .ok e => .ok e
  | .error e => .error (.cause (.ofGroup key e))

namespace PriorFactor

/-- The residual is the deviation from the prior; the Jacobian is the identity. -/
def evaluate (f : PriorFactor α) (values : List (Value α)) (wantJacobian : Bool) :
    Evaluated α (Residual α) :=
  match values with
  | [] => .error (.cause (.missingKey f.key))
  | x :: _ => do
    let e ← f.prior.deviation f.key x
    return ⟨e, if wantJacobian then some (Mat.identity f.prior.dim) else none⟩

end PriorFactor

namespace BetweenFactor

open LieStructure

/-- The residual `(x⁻¹ ∘ y) ⊖ z` and its Jacobian by the chain rule. -/
def residual {G T : Type} [LieStructure α G T] (z x y : G) (wantJacobian : Bool) : Residual α :=
  let relative := between x y
  let e := minus relative z
  let jacobian := if wantJacobian then
      let outer := minusJacobian relative z
      some ((outer * betweenJacobian x y).beside (outer * jacobianIdentity y))
    else none
  ⟨coords G e, jacobian⟩

def evaluate (f : BetweenFactor α) (values : List (Value α)) (wantJacobian : Bool) :
    Evaluated α (Residual α) :=
  match values with
  | [x, y] =>
    match f.measured, x, y with
    | .rn z, .rn x, .rn y =>
      if x.size ≠ z.size then .error (.cause (.dimension z.size x.size))
      else if y.size ≠ z.size then .error (.cause (.dimension z.size y.size))
      else .ok (residual z x y wantJacobian)
    | .so2 z, .so2 x, .so2 y => .ok (residual z x y wantJacobian)
    | .se2 z, .se2 x, .se2 y => .ok (residual z x y wantJacobian)
    | .so3 z, .so3 x, .so3 y => .ok (residual z x y wantJacobian)
    | .se3 z, .se3 x, .se3 y => .ok (residual z x y wantJacobian)
    | z, x, y =>
      if x.manifold ≠ z.manifold then
        .error (.cause (.manifold f.first z.manifold x.manifold))
      else .error (.cause (.manifold f.second z.manifold y.manifold))
  | _ => .error (.cause (.dimension 2 values.length))

end BetweenFactor

namespace EqualityFactor

def isFeasible (f : EqualityFactor α) (deviation : Vec α) : Bool :=
  decide (deviation.amax ≤ f.tolerance)

/-- The residual is the deviation. A violated constraint is refused unless violations are
allowed. -/
def evaluate (f : EqualityFactor α) (values : List (Value α)) (wantJacobian : Bool) :
    Evaluated α (Residual α) :=
  match values with
  | [] => .error (.cause (.missingKey f.key))
  | x :: _ => do
    let e ← f.feasible.deviation f.key x
    if !f.allowError && !f.isFeasible e then .error (.cause (.infeasible f.key e.amax))
    else return ⟨e, if wantJacobian then some (Mat.identity e.size) else none⟩

/-- Zero if the constraint is satisfied and infinite if it is violated; where violations are
allowed, half the squared norm of the whitened deviation. -/
def error (f : EqualityFactor α) (x : Value α) : Evaluated α α := do
  let e ← f.feasible.deviation f.key x
  if f.allowError then return f.noise.distance e
  else if f.isFeasible e then return 0
  else return Scalar.infinity

end EqualityFactor

namespace FunctionFactor

def evaluate (f : FunctionFactor α) (values : List (Value α)) (wantJacobian : Bool) :
    Evaluated α (Residual α) :=
  match values with
  | [] => .error (.cause (.missingKey f.key))
  | .rn x :: _ =>
    match f.measurement.value x with
    | none => .error .sizes
    | some predicted =>
      if predicted.size ≠ f.measured.size then
        .error (.cause (.dimension f.measured.size predicted.size))
      else if wantJacobian then
        match f.measurement.jacobian x with
        | none => .error .sizes
        | some jacobian => .ok ⟨predicted - f.measured, some jacobian⟩
      else .ok ⟨predicted - f.measured, none⟩
  | x :: _ => .error (.cause (.manifold f.key .rn x.manifold))

end FunctionFactor

namespace Factor

def evaluate : Factor α → List (Value α) → Bool → Evaluated α (Residual α)
  | prior f => f.evaluate
  | between f => f.evaluate
  | equality f => f.evaluate
  | function f => f.evaluate
  | custom f => f.evaluate

def lookUp (c : Config α) : List Key → Evaluated α (List (Value α))
  | [] => .ok []
  | k :: ks =>
    match c.get? k with
    | none => .error (.cause (.missingKey k))
    | some v => do
      let vs ← lookUp c ks
      return v :: vs

def values (f : Factor α) (c : Config α) : Evaluated α (List (Value α)) := lookUp c f.keys

/-- Refuses a residual of the wrong length or with coordinates that are not finite. -/
def checkResidual (e : Vec α) (dim : Nat) : Evaluated α Unit :=
  if e.size ≠ dim then .error (.cause (.dimension dim e.size))
  else if !e.allFinite then .error (.cause .residualNotFinite)
  else .ok ()

def unwhitened (f : Factor α) (c : Config α) : Evaluated α (Vec α) := do
  let values ← f.values c
  let r ← f.evaluate values false
  checkResidual r.value f.dimension
  return r.value

def whitened (f : Factor α) (c : Config α) : Evaluated α (Vec α) := do
  let e ← f.unwhitened c
  return f.noise.whiten e

def error (f : Factor α) (c : Config α) : Evaluated α α :=
  match f with
  | equality f =>
    match c.get? f.key with
    | none => .error (.cause (.missingKey f.key))
    | some x => f.error x
  | f => do
    let e ← f.whitened c
    return 0.5 * e.normSq

/-- The columns of a matrix in consecutive blocks of the given widths. -/
def splitColumns (m : Mat α) : Nat → List Nat → List (Mat α)
  | _, [] => []
  | start, w :: ws => m.columns start w :: splitColumns m (start + w) ws

def linearize (f : Factor α) (c : Config α) : Evaluated α (GaussianFactor α) := do
  let values ← f.values c
  let r ← f.evaluate values true
  match r.jacobian with
  | none => .error (.cause .noJacobian)
  | some jacobian =>
    let dim := f.dimension
    checkResidual r.value dim
    let dims := values.map Value.dim
    let width := dims.foldr (· + ·) 0
    if jacobian.height ≠ dim ∨ jacobian.cols ≠ width then
      .error (.cause (.jacobianShape dim width jacobian.height jacobian.cols))
    else if !jacobian.allFinite then .error (.cause .jacobianNotFinite)
    else
      let blocks := splitColumns (f.noise.whitenJacobian jacobian) 0 dims
      match GaussianFactor.ofBlocks? f.keys blocks (-f.noise.whiten r.value) with
      | .ok g => .ok g
      | .error e => .error (.cause (.linear e))

/-- Whether two factors are of one kind, on the same keys, with noise models and measurements that
differ by at most a tolerance. -/
def equals (f g : Factor α) (tolerance : α) : Bool :=
  f.kind == g.kind && f.keys == g.keys && f.noise.isApprox g.noise tolerance &&
    f.measured.isApprox g.measured tolerance

end Factor

end Smoothing
