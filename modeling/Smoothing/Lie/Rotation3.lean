import Smoothing.Lie.Basic
import Smoothing.Lie.Space

/-!
# Rotations of space

A rotation is stored as a quaternion of length one; a quaternion and its negative are the same
rotation. A tangent vector is an axis scaled by an angle. With `θ = ‖φ‖` and `[φ]` the matrix of the
vector product with `φ`, the Jacobians of the exponential with respect to updates from the left are

* `J  = 1 + (1 - cos θ) / θ² [φ] + (θ - sin θ) / θ³ [φ]²`,
* `J⁻¹ = 1 - [φ] / 2 + (1 / θ² - (1 + cos θ) / (2 θ sin θ)) [φ]²`,

and those with respect to updates from the right are their transposes. Near `θ = 0` the first terms
of the series are taken.
-/

namespace Smoothing

/-- A rotation of space, as a quaternion. -/
structure SO3 (α : Type) where
  w : α
  i : α
  j : α
  k : α
deriving Repr

namespace SO3

variable {α : Type} [Scalar α]

def identity : SO3 α := ⟨1, 0, 0, 0⟩

/-- Whether two quaternions are the same rotation: they are equal, or one is the negative of the
other. -/
def same (p q : SO3 α) : Bool :=
  (p.w == q.w && p.i == q.i && p.j == q.j && p.k == q.k) ||
    (p.w == -q.w && p.i == -q.i && p.j == -q.j && p.k == -q.k)

instance : BEq (SO3 α) := ⟨same⟩

def vector (q : SO3 α) : Vec3 α := ⟨q.i, q.j, q.k⟩

/-- The quaternion with given scalar and vector parts. -/
def ofParts (w : α) (v : Vec3 α) : SO3 α := ⟨w, v.x, v.y, v.z⟩

/-- The squared length of the quaternion, one for a rotation. The four squares are added up in
pairs. -/
def normSq (q : SO3 α) : α := (q.i * q.i + q.k * q.k) + (q.j * q.j + q.w * q.w)

def norm (q : SO3 α) : α := Scalar.sqrt q.normSq

def normalize (q : SO3 α) : SO3 α :=
  let n := q.norm
  ⟨q.w / n, q.i / n, q.j / n, q.k / n⟩

def inverse (q : SO3 α) : SO3 α := ⟨q.w, -q.i, -q.j, -q.k⟩

def compose (p q : SO3 α) : SO3 α where
  w := p.w * q.w - p.i * q.i - p.j * q.j - p.k * q.k
  i := p.w * q.i + p.i * q.w + p.j * q.k - p.k * q.j
  j := p.w * q.j - p.i * q.k + p.j * q.w + p.k * q.i
  k := p.w * q.k + p.i * q.j - p.j * q.i + p.k * q.w

def rotate (q : SO3 α) (p : Vec3 α) : Vec3 α :=
  let t := (q.vector.cross p).scale Scalar.two
  t.scale q.w + q.vector.cross t + p

def rotationMatrix (q : SO3 α) : Mat3 α :=
  let (ii, jj, kk, ww) := (q.i * q.i, q.j * q.j, q.k * q.k, q.w * q.w)
  let (ij, wk, wj) := (q.i * q.j * Scalar.two, q.w * q.k * Scalar.two, q.w * q.j * Scalar.two)
  let (ik, jk, wi) := (q.i * q.k * Scalar.two, q.j * q.k * Scalar.two, q.w * q.i * Scalar.two)
  ⟨⟨ww + ii - jj - kk, ij - wk, wj + ik⟩,
   ⟨wk + ij, ww - ii + jj - kk, jk - wi⟩,
   ⟨ik - wj, wi + jk, ww - ii - jj + kk⟩⟩

/-- The rotation by the angles about the three axes, the first axis first. -/
def ofEuler (roll pitch yaw : α) : SO3 α :=
  let (sr, cr) := (Scalar.sin (roll * 0.5), Scalar.cos (roll * 0.5))
  let (sp, cp) := (Scalar.sin (pitch * 0.5), Scalar.cos (pitch * 0.5))
  let (sy, cy) := (Scalar.sin (yaw * 0.5), Scalar.cos (yaw * 0.5))
  ⟨cr * cp * cy + sr * sp * sy, sr * cp * cy - cr * sp * sy, cr * sp * cy + sr * cp * sy,
   cr * cp * sy - sr * sp * cy⟩

def ofYaw (angle : α) : SO3 α := ofEuler 0 0 angle

/-- The rotation with a given matrix. The largest of the four coordinates is found first, as a
square root, and the others from it. -/
def ofMatrix (m : Mat3 α) : SO3 α :=
  let (m00, m01, m02) := (m.r0.x, m.r0.y, m.r0.z)
  let (m10, m11, m12) := (m.r1.x, m.r1.y, m.r1.z)
  let (m20, m21, m22) := (m.r2.x, m.r2.y, m.r2.z)
  let trace := m00 + m11 + m22
  if 0 < trace then
    let d := Scalar.sqrt (trace + 1) * Scalar.two
    ⟨0.25 * d, (m21 - m12) / d, (m02 - m20) / d, (m10 - m01) / d⟩
  else if m11 < m00 ∧ m22 < m00 then
    let d := Scalar.sqrt (1 + m00 - m11 - m22) * Scalar.two
    ⟨(m21 - m12) / d, 0.25 * d, (m01 + m10) / d, (m02 + m20) / d⟩
  else if m22 < m11 then
    let d := Scalar.sqrt (1 + m11 - m00 - m22) * Scalar.two
    ⟨(m02 - m20) / d, (m01 + m10) / d, 0.25 * d, (m12 + m21) / d⟩
  else
    let d := Scalar.sqrt (1 + m22 - m00 - m11) * Scalar.two
    ⟨(m10 - m01) / d, (m02 + m20) / d, (m12 + m21) / d, 0.25 * d⟩

/-- The quaternion `(cos (|φ| / 2), sin (|φ| / 2) φ / |φ|)` of a rotation vector. -/
def ofAxisAngle (φ : Vec3 α) : SO3 α :=
  let half := φ.map (· / Scalar.two)
  let nn := half.normSq
  if nn ≤ Scalar.epsilon * Scalar.epsilon then identity
  else
    let n := Scalar.sqrt nn
    ofParts (Scalar.cos n) (half.scale (Scalar.sin n / n))

/-- The rotation of a rotation vector. A short vector is taken as twice the vector part. -/
def exp (φ : Vec3 α) : SO3 α :=
  if Scalar.epsilon < φ.normSq then ofAxisAngle φ
  else normalize ⟨1, φ.x / Scalar.two, φ.y / Scalar.two, φ.z / Scalar.two⟩

/-- The rotation vector of a rotation, the short way round. -/
def log (q : SO3 α) : Vec3 α :=
  let square := q.i * q.i + q.j * q.j + q.k * q.k
  let factor :=
    if Scalar.epsilon < square then
      let s := Scalar.sqrt square
      let angle :=
        if q.w < 0 then Scalar.two * Scalar.atan2 (-s) (-q.w) else Scalar.two * Scalar.atan2 s q.w
      angle / s
    else Scalar.two / q.w
  q.vector.scale factor

def leftJacobian (φ : Vec3 α) : Mat3 α :=
  let θsq := φ.normSq
  let h := φ.hat
  if θsq ≤ Scalar.epsilon then Mat3.identity + h.scale 0.5 + (h * h).unscale 6.0
  else
    let θ := Scalar.sqrt θsq
    let (s, c) := (Scalar.sin θ, Scalar.cos θ)
    Mat3.identity + h.scale ((1 - c) / θsq) + h.scale ((θ - s) / (θsq * θ)) * h

def leftJacobianInv (φ : Vec3 α) : Mat3 α :=
  let θsq := φ.normSq
  let h := φ.hat
  if θsq ≤ Scalar.epsilon then Mat3.identity - h.scale 0.5 + (h * h).unscale 12.0
  else
    let θ := Scalar.sqrt θsq
    let (s, c) := (Scalar.sin θ, Scalar.cos θ)
    Mat3.identity - h.scale 0.5 + h.scale (1 / θsq - (1 + c) / (2.0 * θ * s)) * h

def isUnit (q : SO3 α) (tolerance : α) : Bool := decide (Scalar.abs (q.norm - 1) < tolerance)

instance : LieStructure α (SO3 α) (Vec3 α) where
  inverse := inverse
  compose := compose
  exp := exp
  log := log
  adjoint q := q.rotationMatrix.toMat
  dim _ := 3
  rightJacobian φ := (leftJacobian φ).transpose.toMat
  leftJacobian φ := (leftJacobian φ).toMat
  rightJacobianInv φ := (leftJacobianInv φ).transpose.toMat
  leftJacobianInv φ := (leftJacobianInv φ).toMat
  coords φ := ⟨φ.toList⟩
  ofCoords v := ⟨v.get 0, v.get 1, v.get 2⟩
  length := Vec3.norm
  normalize := normalize
  isValid := isUnit

end SO3

end Smoothing
