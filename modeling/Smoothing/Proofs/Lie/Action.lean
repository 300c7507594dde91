import Mathlib
import Smoothing.Proofs.Lie.Motion3
import Smoothing.Proofs.Lie.Plane

/-!
# Groups of motions

Over the real numbers the rotations and the rigid motions of the plane and of space, stored with
rotations of length one, are groups that act on points (**`motions_act`**). Composition, the
rotation of a point and the rotation matrix are written down separately, and each law compares two
of them. Of the laws for quaternions only those of the length need the length: the matrix of a
product is the product of the matrices for all quaternions (`SO3.mulVec_rotationMatrix_compose`),
but the matrix of a quaternion `q` rotates by `q` up to `(|q|² - 1) p`
(`SO3.mulVec_rotationMatrix`).

What leads from one element to another does not change when a third is composed with both from the
left (`IsGroupOn.between_compose`).
-/

namespace Smoothing

open LieStructure

section Laws

variable {α G T P : Type} [Scalar α] [LieStructure α G T]

/-- The elements with the property `mem` form a group under composition, with the neutral element
`one`. -/
structure IsGroupOn (mem : G → Prop) (one : G) : Prop where
  one_mem : mem one
  compose_mem : ∀ {g h : G}, mem g → mem h → mem (compose g h)
  inverse_mem : ∀ {g : G}, mem g → mem (inverse g)
  compose_assoc : ∀ {g h k : G}, mem g → mem h → mem k →
    compose (compose g h) k = compose g (compose h k)
  one_compose : ∀ {g : G}, mem g → compose one g = g
  compose_one : ∀ {g : G}, mem g → compose g one = g
  inverse_compose : ∀ {g : G}, mem g → compose (inverse g) g = one
  compose_inverse : ∀ {g : G}, mem g → compose g (inverse g) = one

/-- The elements with the property `mem` form a group, the exponentials are among them, and the
group acts on points from the left. -/
structure IsActingOn (mem : G → Prop) (one : G) (act : G → P → P) :
    Prop extends IsGroupOn mem one where
  exp_mem : ∀ τ : T, mem (exp τ)
  act_one : ∀ p, act one p = p
  act_compose : ∀ {g h : G}, mem g → mem h → ∀ p, act (compose g h) p = act g (act h p)

namespace IsGroupOn

variable {mem : G → Prop} {one g h x y : G} (hG : IsGroupOn mem one)
include hG

theorem inverse_compose_cancel (hg : mem g) (hh : mem h) :
    compose (inverse g) (compose g h) = h := by
  rw [← hG.compose_assoc (hG.inverse_mem hg) hg hh, hG.inverse_compose hg, hG.one_compose hh]

theorem compose_inverse_cancel (hg : mem g) (hh : mem h) :
    compose g (compose (inverse g) h) = h := by
  rw [← hG.compose_assoc hg (hG.inverse_mem hg) hh, hG.compose_inverse hg, hG.one_compose hh]

theorem between_compose (hg : mem g) (hx : mem x) (hy : mem y) :
    between (compose g x) (compose g y) = between x y := by
  have hgx := hG.compose_mem hg hx
  have hxy := hG.compose_mem (hG.inverse_mem hx) hy
  have hsplit : compose g y = compose (compose g x) (between x y) := by
    unfold between
    rw [hG.compose_assoc hg hx hxy, hG.compose_inverse_cancel hx hy]
  calc between (compose g x) (compose g y)
    _ = compose (inverse (compose g x)) (compose (compose g x) (between x y)) := by
      rw [← hsplit]
      rfl
    _ = between x y := hG.inverse_compose_cancel hgx hxy

end IsGroupOn

end Laws

/-! ### The plane -/

/-- The coordinates of a point of the plane. -/
def Vec2.toVec {α : Type} (p : Vec2 α) : Vec α := ⟨[p.x, p.y]⟩

attribute [ext] Vec2

namespace SO2

theorem compose_identity (r : SO2 ℝ) : r.compose identity = r := by
  ext <;> simp only [compose, identity] <;> ring

theorem rotate_identity (p : Vec2 ℝ) : identity.rotate p = p := by
  ext <;> simp only [rotate, identity] <;> ring

theorem rotate_compose (r s : SO2 ℝ) (p : Vec2 ℝ) :
    (r.compose s).rotate p = r.rotate (s.rotate p) := by
  ext <;> simp only [rotate, compose] <;> ring

theorem mulVec_rotationMatrix (r : SO2 ℝ) (p : Vec2 ℝ) :
    r.rotationMatrix.mulVec p.toVec = (r.rotate p).toVec := by
  change (⟨[r.re * p.x + -r.im * p.y, r.im * p.x + r.re * p.y]⟩ : Vec ℝ) =
    ⟨[r.re * p.x - r.im * p.y, r.im * p.x + r.re * p.y]⟩
  rw [neg_mul, sub_eq_add_neg]

theorem isActingOn : IsActingOn (fun r : SO2 ℝ => r.normSq = 1) identity rotate where
  one_mem := by simp [normSq, identity]
  compose_mem hr hs := (normSq_compose _ _).trans (by rw [hr, hs, one_mul])
  inverse_mem hr := (normSq_inverse _).trans hr
  compose_assoc _ _ _ := SO2.compose_assoc _ _ _
  one_compose _ := identity_compose _
  compose_one _ := compose_identity _
  inverse_compose hr := SO2.inverse_compose hr
  compose_inverse hr := SO2.compose_inverse hr
  exp_mem := normSq_ofAngle
  act_one := rotate_identity
  act_compose _ _ := rotate_compose _ _

end SO2

namespace SE2

theorem compose_identity (g : SE2 ℝ) : g.compose identity = g := by
  ext <;> simp only [compose, transform, shift, identity, SO2.identity, SO2.rotate, SO2.compose] <;>
    ring

theorem transform_identity (p : Vec2 ℝ) : identity.transform p = p := by
  ext <;> simp only [transform, identity, SO2.identity, SO2.rotate] <;> ring

theorem transform_compose (g h : SE2 ℝ) (p : Vec2 ℝ) :
    (g.compose h).transform p = g.transform (h.transform p) := by
  ext <;> simp only [transform, compose, shift, SO2.rotate, SO2.compose] <;> ring

theorem isActingOn : IsActingOn (fun g : SE2 ℝ => g.rotation.normSq = 1) identity transform where
  one_mem := SO2.isActingOn.one_mem
  compose_mem := SO2.isActingOn.compose_mem
  inverse_mem := SO2.isActingOn.inverse_mem
  compose_assoc _ _ _ := SE2.compose_assoc _ _ _
  one_compose _ := identity_compose _
  compose_one _ := compose_identity _
  inverse_compose hg := SE2.inverse_compose hg
  compose_inverse hg := SE2.compose_inverse hg
  exp_mem τ := SO2.normSq_ofAngle τ.θ
  act_one := transform_identity
  act_compose _ _ := transform_compose _ _

end SE2

/-! ### Rotations of space -/

namespace SO3

theorem compose_identity (q : SO3 ℝ) : q.compose identity = q := by
  ext <;> simp only [compose, identity] <;> ring

theorem normSq_compose (p q : SO3 ℝ) : (p.compose q).normSq = p.normSq * q.normSq := by
  simp only [normSq, compose]
  ring

theorem normSq_inverse (q : SO3 ℝ) : q.inverse.normSq = q.normSq := by
  simp only [normSq, inverse]
  ring

theorem compose_inverse {q : SO3 ℝ} (h : q.normSq = 1) : q.compose q.inverse = identity := by
  unfold normSq at h
  ext
  · simp only [compose, inverse, identity]
    linear_combination h
  all_goals
    simp only [compose, inverse, identity]
    ring

theorem normSq_ofParts (w : ℝ) (v : Vec3 ℝ) : (ofParts w v).normSq = w * w + v.normSq := by
  rw [normSq_eq, vector_ofParts]
  rfl

/-- An exponential has length one, on the series by its normalization and on the closed form by
`cos² + sin² = 1`. -/
theorem normSq_exp (φ : Vec3 ℝ) : (exp φ).normSq = 1 := by
  rcases le_or_gt φ.normSq Scalar.epsilon with h | h
  · have hpos : 0 < 1 + φ.normSq / 4 := by
      have := φ.normSq_nonneg
      positivity
    have hsq := Real.mul_self_sqrt hpos.le
    have hne := (Real.sqrt_pos.mpr hpos).ne'
    rw [exp_of_le h, normSq_ofParts, Vec3.normSq_scale]
    generalize Real.sqrt (1 + φ.normSq / 4) = s at *
    field_simp
    linear_combination -4 * hsq
  · have hne := (Vec3.norm_pos h).ne'
    rw [exp_of_lt h, normSq_ofParts, Vec3.normSq_scale, ← φ.norm_mul_norm]
    field_simp
    exact Real.cos_sq_add_sin_sq _

theorem rotate_identity (p : Vec3 ℝ) : identity.rotate p = p := by
  ext <;> simp only [rotate, identity, vector, Vec3.cross, Vec3.scale_eq, Vec3.add_eq] <;> ring

/-- The matrix of a quaternion `q` takes `p` to its rotation, up to a multiple of `p` that vanishes
if `q` has length one. -/
theorem mulVec_rotationMatrix_add (q : SO3 ℝ) (p : Vec3 ℝ) :
    q.rotationMatrix.mulVec p = q.rotate p + p.scale (q.normSq - 1) := by
  ext <;>
  · simp only [rotationMatrix, Mat3.mulVec, rotate, normSq, vector, Vec3.dot, Vec3.cross,
      Vec3.scale_eq, Vec3.add_eq, Scalar.two_real]
    ring

theorem mulVec_rotationMatrix {q : SO3 ℝ} (h : q.normSq = 1) (p : Vec3 ℝ) :
    q.rotationMatrix.mulVec p = q.rotate p := by
  rw [mulVec_rotationMatrix_add, h]
  ext <;> simp only [Vec3.add_eq, Vec3.scale_eq] <;> ring

theorem mulVec_rotationMatrix_compose (q r : SO3 ℝ) (p : Vec3 ℝ) :
    (q.compose r).rotationMatrix.mulVec p =
    q.rotationMatrix.mulVec (r.rotationMatrix.mulVec p) := by
  ext <;>
  · simp only [rotationMatrix, compose, Mat3.mulVec, Vec3.dot, Scalar.two_real]
    ring

theorem rotate_compose {q r : SO3 ℝ} (hq : q.normSq = 1) (hr : r.normSq = 1) (p : Vec3 ℝ) :
    (q.compose r).rotate p = q.rotate (r.rotate p) := by
  have hqr : (q.compose r).normSq = 1 := by rw [normSq_compose, hq, hr, one_mul]
  rw [← mulVec_rotationMatrix hqr, mulVec_rotationMatrix_compose, mulVec_rotationMatrix hr,
    mulVec_rotationMatrix hq]

theorem rotate_neg (q : SO3 ℝ) (p : Vec3 ℝ) : q.rotate (-p) = -q.rotate p := by
  ext <;> simp only [rotate, vector, Vec3.cross, Vec3.scale_eq, Vec3.add_eq, Vec3.neg_eq] <;> ring

theorem rotate_rotate_inverse {q : SO3 ℝ} (h : q.normSq = 1) (p : Vec3 ℝ) :
    q.rotate (q.inverse.rotate p) = p := by
  rw [← rotate_compose h ((normSq_inverse q).trans h), compose_inverse h, rotate_identity]

theorem isActingOn : IsActingOn (fun q : SO3 ℝ => q.normSq = 1) identity rotate where
  one_mem := by simp [normSq, identity]
  compose_mem hq hr := (normSq_compose _ _).trans (by rw [hq, hr, one_mul])
  inverse_mem hq := (normSq_inverse _).trans hq
  compose_assoc _ _ _ := SO3.compose_assoc _ _ _
  one_compose _ := identity_compose _
  compose_one _ := compose_identity _
  inverse_compose hq := SO3.inverse_compose hq
  compose_inverse hq := SO3.compose_inverse hq
  exp_mem := normSq_exp
  act_one := rotate_identity
  act_compose := rotate_compose

end SO3

/-! ### Rigid motions of space -/

namespace SE3

variable {g h k : SE3 ℝ}

theorem transform_identity (p : Vec3 ℝ) : identity.transform p = p := by
  rw [transform, identity, SO3.rotate_identity]
  ext <;> simp only [Vec3.add_eq, Vec3.zero, add_zero]

theorem transform_compose (hg : g.rotation.normSq = 1) (hh : h.rotation.normSq = 1) (p : Vec3 ℝ) :
    (g.compose h).transform p = g.transform (h.transform p) := by
  change (g.rotation.compose h.rotation).rotate p + (g.rotation.rotate h.shift + g.shift) =
    g.rotation.rotate (h.rotation.rotate p + h.shift) + g.shift
  rw [SO3.rotate_compose hg hh, SO3.rotate_add]
  ext <;> simp only [Vec3.add_eq] <;> ring

theorem compose_assoc (hg : g.rotation.normSq = 1) (hh : h.rotation.normSq = 1) :
    (g.compose h).compose k = g.compose (h.compose k) :=
  SE3.ext (transform_compose hg hh k.shift) (SO3.compose_assoc _ _ _)

theorem identity_compose (g : SE3 ℝ) : identity.compose g = g :=
  SE3.ext (transform_identity g.shift) (SO3.identity_compose _)

theorem compose_identity (g : SE3 ℝ) : g.compose identity = g := by
  refine SE3.ext ?_ (SO3.compose_identity _)
  change g.rotation.rotate Vec3.zero + g.shift = g.shift
  ext <;> simp only [SO3.rotate, Vec3.zero, Vec3.cross, Vec3.scale_eq, Vec3.add_eq] <;> ring

theorem inverse_compose (hg : g.rotation.normSq = 1) : g.inverse.compose g = identity := by
  refine SE3.ext ?_ (SO3.inverse_compose hg)
  change g.rotation.inverse.rotate g.shift + -g.rotation.inverse.rotate g.shift = Vec3.zero
  ext <;> simp only [Vec3.add_eq, Vec3.neg_eq, Vec3.zero] <;> ring

theorem compose_inverse (hg : g.rotation.normSq = 1) : g.compose g.inverse = identity := by
  refine SE3.ext ?_ (SO3.compose_inverse hg)
  change g.rotation.rotate (-g.rotation.inverse.rotate g.shift) + g.shift = Vec3.zero
  rw [SO3.rotate_neg, SO3.rotate_rotate_inverse hg]
  ext <;> simp only [Vec3.add_eq, Vec3.neg_eq, Vec3.zero, neg_add_cancel]

theorem isActingOn : IsActingOn (fun g : SE3 ℝ => g.rotation.normSq = 1) identity transform where
  one_mem := SO3.isActingOn.one_mem
  compose_mem := SO3.isActingOn.compose_mem
  inverse_mem := SO3.isActingOn.inverse_mem
  compose_assoc hg hh _ := SE3.compose_assoc hg hh
  one_compose _ := identity_compose _
  compose_one _ := compose_identity _
  inverse_compose hg := SE3.inverse_compose hg
  compose_inverse hg := SE3.compose_inverse hg
  exp_mem τ := SO3.normSq_exp τ.θ
  act_one := transform_identity
  act_compose := transform_compose

end SE3

/-- **The rotations and the rigid motions of the plane and of space are groups that act on points**,
and a rotation matrix rotates points like the rotation it is the matrix of. -/
theorem motions_act :
    IsActingOn (fun r : SO2 ℝ => r.normSq = 1) SO2.identity SO2.rotate ∧
      IsActingOn (fun g : SE2 ℝ => g.rotation.normSq = 1) SE2.identity SE2.transform ∧
      IsActingOn (fun q : SO3 ℝ => q.normSq = 1) SO3.identity SO3.rotate ∧
      IsActingOn (fun g : SE3 ℝ => g.rotation.normSq = 1) SE3.identity SE3.transform ∧
      (∀ (r : SO2 ℝ) p, r.rotationMatrix.mulVec p.toVec = (r.rotate p).toVec) ∧
      ∀ q : SO3 ℝ, q.normSq = 1 → ∀ p, q.rotationMatrix.mulVec p = q.rotate p :=
  ⟨SO2.isActingOn, SE2.isActingOn, SO3.isActingOn, SE3.isActingOn, SO2.mulVec_rotationMatrix,
    fun _ => SO3.mulVec_rotationMatrix⟩

namespace QuarterTurn

theorem motions_act_turn :
    (start.compose stored).rotate ⟨1, 2, 3⟩ = start.rotate (stored.rotate ⟨1, 2, 3⟩) ∧
      SE3.compose ⟨turn, start⟩ (SE3.inverse ⟨turn, start⟩) = SE3.identity ∧
      start.rotationMatrix.mulVec ⟨1, 2, 3⟩ = start.rotate ⟨1, 2, 3⟩ := by
  obtain ⟨-, -, hrotation, hmotion, -, hmatrix⟩ := motions_act
  exact ⟨hrotation.act_compose normSq_start normSq_stored _, hmotion.compose_inverse normSq_start,
    hmatrix _ normSq_start _⟩

end QuarterTurn

end Smoothing
