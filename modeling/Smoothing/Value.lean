import Smoothing.Lie.Euclidean
import Smoothing.Lie.Motion2
import Smoothing.Lie.Motion3

/-!
# Values

The value of a variable: an element of one of the five groups. An update by a vector of tangent
coordinates and the difference of two values go by the group the value is in.
-/

namespace Smoothing

inductive Manifold where
  | rn
  | so2
  | se2
  | so3
  | se3
deriving DecidableEq, Repr

def Manifold.text : Manifold → String
  | .rn => "Rn"
  | .so2 => "SO2"
  | .se2 => "SE2"
  | .so3 => "SO3"
  | .se3 => "SE3"

inductive GroupError where
  | tangentDimension (expected actual : Nat)
  | dimension (expected actual : Nat)
  | notFinite
  | manifold (expected actual : Manifold)
deriving DecidableEq, Repr

def GroupError.message : GroupError → String
  | .tangentDimension expected actual =>
    s!"Invalid tangent dimension: expected {expected}, got {actual}"
  | .dimension expected actual => s!"Dimension mismatch: expected {expected}, got {actual}"
  | .notFinite => "Invalid number: NaN or Inf detected"
  | .manifold expected actual =>
    s!"Manifold type mismatch: expected {expected.text}, got {actual.text}"

inductive Value (α : Type) where
  | rn (x : Vec α)
  | so2 (x : SO2 α)
  | se2 (x : SE2 α)
  | so3 (x : SO3 α)
  | se3 (x : SE3 α)
deriving Repr

namespace Value

variable {α : Type}

def manifold : Value α → Manifold
  | rn _ => .rn
  | so2 _ => .so2
  | se2 _ => .se2
  | so3 _ => .so3
  | se3 _ => .se3

def dim : Value α → Nat
  | rn x => x.size
  | so2 _ => 1
  | se2 _ => 3
  | so3 _ => 3
  | se3 _ => 6

variable [Scalar α]

open LieStructure

def same : Value α → Value α → Bool
  | rn x, rn y => x == y
  | so2 x, so2 y => x == y
  | se2 x, se2 y => x == y
  | so3 x, so3 y => x == y
  | se3 x, se3 y => x == y
  | _, _ => false

instance : BEq (Value α) := ⟨same⟩

def plus (x : Value α) (δ : Vec α) : Value α :=
  match x with
  | rn x => rn (LieStructure.plus x (ofCoords (G := Vec α) δ))
  | so2 x => so2 (LieStructure.plus x (ofCoords (G := SO2 α) δ))
  | se2 x => se2 (LieStructure.plus x (ofCoords (G := SE2 α) δ))
  | so3 x => so3 (LieStructure.plus x (ofCoords (G := SO3 α) δ))
  | se3 x => se3 (LieStructure.plus x (ofCoords (G := SE3 α) δ))

/-- The update of a value. The length is tested first, then that all coordinates are finite. -/
def retract (x : Value α) (δ : Vec α) : Except GroupError (Value α) :=
  if δ.size ≠ x.dim then .error (.tangentDimension x.dim δ.size)
  else if !δ.allFinite then .error .notFinite
  else .ok (x.plus δ)

def localCoords (x y : Value α) : Except GroupError (Vec α) :=
  match x, y with
  | rn a, rn b =>
    if a.size ≠ b.size then .error (.dimension a.size b.size) else .ok (minus b a)
  | so2 a, so2 b => .ok (coords (SO2 α) (minus b a))
  | se2 a, se2 b => .ok (coords (SE2 α) (minus b a))
  | so3 a, so3 b => .ok (coords (SO3 α) (minus b a))
  | se3 a, se3 b => .ok (coords (SE3 α) (minus b a))
  | _, _ => .error (.manifold x.manifold y.manifold)

/-- The numbers that describe a value: those that are stored, or an angle for a rotation of the
plane. -/
def toVec : Value α → Vec α
  | rn x => x
  | so2 x => ⟨[x.angle]⟩
  | se2 x => ⟨[x.x, x.y, x.angle]⟩
  | so3 x => ⟨[x.w, x.i, x.j, x.k]⟩
  | se3 x => ⟨x.shift.toList ++ [x.rotation.w, x.rotation.i, x.rotation.j, x.rotation.k]⟩

/-- Whether two values are in one group and differ by at most a tolerance in every coordinate. -/
def isApprox (x y : Value α) (tolerance : α) : Bool :=
  match x.localCoords y with
  | .ok δ => decide (δ.amax ≤ tolerance)
  | .error _ => false

end Value

end Smoothing
