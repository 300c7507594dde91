import Mathlib
import Smoothing.Proofs.Lie.Adjoint

/-!
# The Jacobians of the groups

The Jacobian of an exponential with respect to updates from the right times that of the logarithm is
the identity matrix, and so for updates from the left; and since an update from the right is one
from the left moved past the element, the left Jacobian is the adjoint matrix of the exponential
times the right one (**`jacobians_invert`**).

For rigid motions of the plane these are identities between the entries, and the left Jacobian is
the right one at the opposite tangent vector. For rotations of space all matrices are series
`1 + a [φ] + b [φ]²`, so transposing is changing the sign of `φ`. For rigid motions of space the
coupling block is a combination of `[ρ]`, `[θ] [ρ] + [ρ] [θ]`, `[θ]` and `[θ]²` (`SE3.coupling`):
the longer products of `[ρ]` and `[θ]` reduce to these, with the inner product of `ρ` and `θ` as a
factor. The rotation and the shift of the exponential then act on the four coefficients.

To first order the inverse Jacobians are `1 ± ½ ad τ`, and where they are the identity the tangent
vector is zero (`SE2.Tangent.rightJacobianInv_eq_identity`, `SO3.leftJacobianInv_eq_identity`,
`SE3.leftJacobianInv_eq_identity`).
-/

namespace Smoothing

open LieStructure

/-! ### Rigid motions of the plane -/

namespace SE2.Tangent

section Large
variable {x y θ : ℝ}

theorem rightJacobian_of_le (h : Scalar.epsilon ≤ θ * θ) : (⟨x, y, θ⟩ : Tangent ℝ).rightJacobian =
    jacobian (Real.sin θ / θ) ((1 - Real.cos θ) / θ)
    ((-y + θ * x + y * Real.cos θ - x * Real.sin θ) / (θ * θ))
      (-((1 - Real.cos θ) / θ)) (Real.sin θ / θ) ((x + θ * y - x * Real.cos θ - y * Real.sin θ) /
        (θ * θ)) := by
  unfold rightJacobian isSmall
  simp only [coefficients_of_le h]
  exact if_neg (by simpa using h)

theorem leftJacobian_eq (h : Scalar.epsilon ≤ θ * θ) :
    (⟨x, y, θ⟩ : Tangent ℝ).leftJacobian = (⟨-x, -y, -θ⟩ : Tangent ℝ).rightJacobian := by
  have h0 := ne_zero_of_le h
  rw [rightJacobian_of_le (by rwa [neg_mul_neg])]
  unfold leftJacobian isSmall
  simp only [coefficients_of_le h, Real.sin_neg, Real.cos_neg]
  refine (if_neg (by simpa using h)).trans ?_
  simp only [Scalar.sin_real, Scalar.cos_real]
  congr 1 <;> field_simp <;> ring

theorem versine_ne_zero (hcos : Real.cos θ ≠ 1) :
    1 - Real.cos θ ≠ 0 ∧ Real.cos θ - 1 ≠ 0 ∧ 2 * Real.cos θ - 2 ≠ 0 := by
  have hne := sub_ne_zero.mpr hcos
  have hdouble : 2 * Real.cos θ - 2 = 2 * (Real.cos θ - 1) := by ring
  exact ⟨sub_ne_zero.mpr hcos.symm, hne, hdouble ▸ mul_ne_zero two_ne_zero hne⟩

theorem rightJacobianInv_of_lt (h : Scalar.epsilon < θ * θ) (hcos : Real.cos θ ≠ 1) :
    (⟨x, y, θ⟩ : Tangent ℝ).rightJacobianInv =
      jacobian (θ * Real.sin θ / (2 * (1 - Real.cos θ))) (-θ / 2)
        (y / 2 + x / θ - x * Real.sin θ / (2 * (1 - Real.cos θ))) (θ / 2)
        (θ * Real.sin θ / (2 * (1 - Real.cos θ)))
        (-x / 2 + y / θ - y * Real.sin θ / (2 * (1 - Real.cos θ))) := by
  have h0 := ne_zero_of_le h.le
  obtain ⟨hden, hden', hdouble⟩ := versine_ne_zero hcos
  unfold rightJacobianInv
  refine (if_pos h).trans ?_
  norm_num only [Scalar.sin_real, Scalar.cos_real]
  congr 1 <;> field_simp <;> ring

theorem leftJacobianInv_eq (h : Scalar.epsilon < θ * θ) (hcos : Real.cos θ ≠ 1) :
    (⟨x, y, θ⟩ : Tangent ℝ).leftJacobianInv = (⟨-x, -y, -θ⟩ : Tangent ℝ).rightJacobianInv := by
  have h0 := ne_zero_of_le h.le
  obtain ⟨hden, hden', hdouble⟩ := versine_ne_zero hcos
  rw [rightJacobianInv_of_lt (by rwa [neg_mul_neg]) (by rwa [Real.cos_neg])]
  unfold leftJacobianInv
  refine (if_pos h).trans ?_
  norm_num only [Scalar.sin_real, Scalar.cos_real, Real.sin_neg, Real.cos_neg]
  congr 1 <;> field_simp <;> ring

/-- The products of the entries: each vanishes up to `sin² θ + cos² θ = 1`. -/
theorem rightJacobian_mul_inv (h : Scalar.epsilon < θ * θ) (hcos : Real.cos θ ≠ 1) :
    (⟨x, y, θ⟩ : Tangent ℝ).rightJacobian * (⟨x, y, θ⟩ : Tangent ℝ).rightJacobianInv =
    Mat.identity 3 := by
  have h0 := ne_zero_of_le h.le
  have hden := (versine_ne_zero hcos).1
  have hcircle := Real.sin_sq_add_cos_sq θ
  rw [rightJacobian_of_le h.le, rightJacobianInv_of_lt h hcos, jacobian_mul, ← jacobian_identity]
  congr 1
  · field_simp
    linear_combination hcircle
  · field_simp
    ring
  · field_simp
    linear_combination -θ * x * hcircle
  · field_simp
    ring
  · field_simp
    linear_combination hcircle
  · field_simp
    linear_combination -θ * y * hcircle

theorem leftJacobian_eq_adjoint_mul (h : Scalar.epsilon ≤ θ * θ) :
    (⟨x, y, θ⟩ : Tangent ℝ).leftJacobian =
      LieStructure.adjoint (⟨x, y, θ⟩ : Tangent ℝ).exp * (⟨x, y, θ⟩ : Tangent ℝ).rightJacobian := by
  have h0 := ne_zero_of_le h
  have hcircle := Real.sin_sq_add_cos_sq θ
  rw [leftJacobian_eq h, rightJacobian_of_le (by rwa [neg_mul_neg]), rightJacobian_of_le h,
    adjoint_eq, jacobian_mul]
  simp only [Tangent.exp, SO2.ofAngle, coefficients_of_le h, Scalar.sin_real, Scalar.cos_real,
    Real.sin_neg, Real.cos_neg]
  congr 1
  · field_simp
    ring
  · field_simp
    linear_combination hcircle
  · field_simp
    linear_combination -y * hcircle
  · field_simp
    linear_combination -hcircle
  · field_simp
    ring
  · field_simp
    linear_combination x * hcircle

end Large

theorem jacobian_inj {a b u c d v a' b' u' c' d' v' : ℝ} :
    jacobian a b u c d v = jacobian a' b' u' c' d' v' ↔
    (a = a' ∧ b = b' ∧ u = u') ∧ c = c' ∧ d = d' ∧ v = v' := by
  simp [jacobian, Mat.mk.injEq]

theorem rightJacobianInv_of_le {τ : Tangent ℝ} (h : τ.θ * τ.θ ≤ Scalar.epsilon) :
    τ.rightJacobianInv =
    jacobian (1 - τ.θ * τ.θ / 12) (-τ.θ / 2) (τ.y / 2 + τ.θ * τ.x / 12) (τ.θ / 2)
      (1 - τ.θ * τ.θ / 12) (-τ.x / 2 + τ.θ * τ.y / 12) := by
  unfold rightJacobianInv
  refine (if_neg h.not_gt).trans ?_
  norm_num only
  congr 1 <;> ring

theorem cols_rightJacobianInv (τ : Tangent ℝ) : τ.rightJacobianInv.cols = 3 := by
  unfold rightJacobianInv
  dsimp only
  split_ifs <;> rfl

theorem height_rightJacobianInv (τ : Tangent ℝ) : τ.rightJacobianInv.height = 3 := by
  unfold rightJacobianInv
  dsimp only
  split_ifs <;> rfl

/-- The inverse of the right Jacobian is the identity only at zero: its antisymmetric part is half
the angle. -/
theorem rightJacobianInv_eq_identity {τ : Tangent ℝ} :
    τ.rightJacobianInv = Mat.identity 3 ↔ τ = ⟨0, 0, 0⟩ := by
  rw [← jacobian_identity]
  constructor
  · intro h
    have hentry : ∃ d u v, τ.rightJacobianInv = jacobian d (-τ.θ * 0.5) u (τ.θ * 0.5) d v := by
      unfold rightJacobianInv
      dsimp only
      split_ifs <;> exact ⟨_, _, _, rfl⟩
    have hθ : τ.θ = 0 := by
      obtain ⟨d, u, v, hinv⟩ := hentry
      rw [hinv, jacobian_inj] at h
      have hhalf := h.2.1
      norm_num at hhalf
      exact hhalf
    rw [rightJacobianInv_of_le (by rw [hθ, zero_mul]; exact Scalar.epsilon_pos.le),
      jacobian_inj] at h
    obtain ⟨⟨-, -, hu⟩, -, -, hv⟩ := h
    rw [hθ] at hu hv
    ext
    · linarith
    · linarith
    · exact hθ
  · rintro rfl
    rw [rightJacobianInv_of_le (by simpa using Scalar.epsilon_pos.le)]
    simp

end SE2.Tangent

/-! ### Rotations of space -/

namespace SO3

/-- The matrix `1 + a [θ] + b [θ]²`. -/
def seriesMatrix {α : Type} [Scalar α] (θ : Vec3 α) (a b : α) : Mat3 α :=
  Mat3.identity + θ.hat.scale a + θ.hat.scale b * θ.hat

theorem transpose_seriesMatrix (θ : Vec3 ℝ) (a b : ℝ) :
    (seriesMatrix θ a b).transpose = seriesMatrix (-θ) a b := by
  ext <;>
  · simp only [seriesMatrix, Mat3.transpose, Mat3.add_eq, Mat3.mul_eq, Mat3.scale, Mat3.identity,
      Mat3.mulVec, Vec3.hat, Vec3.dot, Vec3.add_eq, Vec3.scale_eq, Vec3.neg_eq]
    ring

theorem mulVec_seriesMatrix (θ v : Vec3 ℝ) (a b : ℝ) :
    (seriesMatrix θ a b).mulVec v = series θ a b v :=
  mulVec_series θ v a b

theorem series_comm (θ v : Vec3 ℝ) (a b c d : ℝ) :
    series θ a b (series θ c d v) = series θ c d (series θ a b v) := by
  rw [series_series, series_series]
  congr 1 <;> ring

section Large
variable {φ : Vec3 ℝ} (h : Scalar.epsilon < φ.normSq)
include h

theorem leftJacobian_eq : leftJacobian φ = seriesMatrix φ (c₂ φ) (c₃ φ) :=
  Mat3.ext_mulVec fun v => by rw [mulVec_leftJacobian_eq h, mulVec_seriesMatrix]

theorem leftJacobianInv_eq : leftJacobianInv φ = seriesMatrix φ (-(1 / 2))
    (1 / φ.normSq - (1 + Real.cos φ.norm) / (2 * φ.norm * Real.sin φ.norm)) :=
  Mat3.ext_mulVec fun v => by rw [mulVec_leftJacobianInv h, mulVec_seriesMatrix]

theorem transpose_leftJacobian : (leftJacobian φ).transpose = leftJacobian (-φ) := by
  rw [leftJacobian_eq h, leftJacobian_eq (by rwa [Vec3.normSq_neg]), transpose_seriesMatrix]
  simp only [c₂, c₃, Vec3.norm_neg, Vec3.normSq_neg]

theorem transpose_leftJacobianInv : (leftJacobianInv φ).transpose = leftJacobianInv (-φ) := by
  rw [leftJacobianInv_eq h, leftJacobianInv_eq (by rwa [Vec3.normSq_neg]), transpose_seriesMatrix,
    Vec3.norm_neg, Vec3.normSq_neg]

theorem leftJacobian_mul_inv (hsin : Real.sin φ.norm ≠ 0) :
    leftJacobian φ * leftJacobianInv φ = Mat3.identity := by
  -- Both are series in the vector product with `φ`, so they commute.
  refine Mat3.ext_mulVec fun v => ?_
  have hinv := leftJacobianInv_leftJacobian h hsin v
  simp only [leftJacobian_eq h, leftJacobianInv_eq h, mulVec_seriesMatrix] at hinv ⊢
  rw [Mat3.mulVec_mul, mulVec_seriesMatrix, mulVec_seriesMatrix, series_comm, hinv,
    Mat3.mulVec_identity]

theorem rotationMatrix_mul_leftJacobian_neg :
    (exp φ).rotationMatrix * leftJacobian (-φ) = leftJacobian φ :=
  Mat3.ext_mulVec fun v => by
    rw [Mat3.mulVec_mul, mulVec_rotationMatrix (normSq_exp φ), rotate_exp_leftJacobian_neg h]

end Large

section Small
variable {φ : Vec3 ℝ} (h : φ.normSq ≤ Scalar.epsilon)
include h

theorem mulVec_leftJacobian_of_le (v : Vec3 ℝ) :
    (leftJacobian φ).mulVec v = series φ (1 / 2) (1 / 6) v := by
  unfold leftJacobian
  rw [if_pos h, Mat3.mul_unscale, mulVec_series]
  norm_num

theorem mulVec_leftJacobianInv_of_le (v : Vec3 ℝ) :
    (leftJacobianInv φ).mulVec v = series φ (-(1 / 2)) (1 / 12) v := by
  unfold leftJacobianInv
  rw [if_pos h, Mat3.mul_unscale, mulVec_series_sub]
  norm_num

end Small

/-- On both branches the inverse Jacobian is a series with the coefficient `-1 / 2`. -/
theorem exists_leftJacobianInv (φ : Vec3 ℝ) :
    ∃ b, leftJacobianInv φ = seriesMatrix φ (-(1 / 2)) b := by
  rcases lt_or_ge Scalar.epsilon φ.normSq with h | h
  · exact ⟨_, leftJacobianInv_eq h⟩
  · exact ⟨_, Mat3.ext_mulVec fun v => by rw [mulVec_leftJacobianInv_of_le h, mulVec_seriesMatrix]⟩

/-- A series is the identity only at zero: its antisymmetric part is the linear term. -/
theorem seriesMatrix_eq_identity {φ : Vec3 ℝ} {a b : ℝ} (ha : a ≠ 0) :
    seriesMatrix φ a b = Mat3.identity ↔ φ = Vec3.zero := by
  constructor
  · intro h
    simp only [seriesMatrix, Mat3.add_eq, Mat3.mul_eq, Mat3.scale, Mat3.identity, Mat3.mulVec,
      Mat3.transpose, Vec3.hat, Vec3.dot, Vec3.add_eq, Vec3.scale_eq, Mat3.mk.injEq,
      Vec3.mk.injEq] at h
    obtain ⟨⟨-, h01, h02⟩, ⟨h10, -, h12⟩, h20, h21, -⟩ := h
    have hx : a * φ.x = 0 := by linear_combination (h21 - h12) / 2
    have hy : a * φ.y = 0 := by linear_combination (h02 - h20) / 2
    have hz : a * φ.z = 0 := by linear_combination (h10 - h01) / 2
    exact Vec3.ext ((mul_eq_zero.mp hx).resolve_left ha) ((mul_eq_zero.mp hy).resolve_left ha)
      ((mul_eq_zero.mp hz).resolve_left ha)
  · rintro rfl
    ext <;> simp [seriesMatrix, Mat3.add_eq, Mat3.mul_eq, Mat3.scale, Mat3.identity, Mat3.mulVec,
      Mat3.transpose, Vec3.hat, Vec3.dot, Vec3.add_eq, Vec3.scale_eq, Vec3.zero]

theorem leftJacobianInv_eq_identity {φ : Vec3 ℝ} :
    leftJacobianInv φ = Mat3.identity ↔ φ = Vec3.zero := by
  obtain ⟨b, hseries⟩ := exists_leftJacobianInv φ
  rw [hseries, seriesMatrix_eq_identity (by norm_num)]

end SO3

/-! ### Rigid motions of space -/

namespace SE3

open SO3

/-- The vector `a ρ × v + b (θ × (ρ × v) + ρ × (θ × v)) + (θ · ρ) (c θ × v + d θ × (θ × v))`. -/
def coupling {α : Type} [Scalar α] (ρ θ : Vec3 α) (a b c d : α) (v : Vec3 α) : Vec3 α :=
  (ρ.cross v).scale a + (θ.cross (ρ.cross v) + ρ.cross (θ.cross v)).scale b +
    (θ.cross v).scale (c * θ.dot ρ) + (θ.cross (θ.cross v)).scale (d * θ.dot ρ)

/-- The products of `[ρ]` and `[θ]` reduce by `[θ] [ρ] [θ] = -(θ · ρ) [θ]` and
`[θ]² [ρ] + [ρ] [θ]² = -|θ|² [ρ] - (θ · ρ) [θ]`. -/
theorem mulVec_coupling (ρ θ v : Vec3 ℝ) (h k b c d : ℝ) :
    (ρ.hat.scale h + (θ.hat * ρ.hat + ρ.hat * θ.hat + θ.hat * ρ.hat * θ.hat).scale b -
        (θ.hat * θ.hat * ρ.hat + ρ.hat * (θ.hat * θ.hat) - (θ.hat * ρ.hat * θ.hat).scale k).scale
        c - (θ.hat * ρ.hat * θ.hat * θ.hat + θ.hat * (θ.hat * ρ.hat * θ.hat)).scale d).mulVec v =
      coupling ρ θ (h + θ.normSq * c) b ((1 - k) * c - b) (2 * d) v := by
  simp only [Mat3.add_mulVec, Mat3.sub_mulVec, Mat3.scale_mulVec, Mat3.mulVec_mul, Mat3.mulVec_hat]
  ext <;>
  · simp only [coupling, Vec3.add_eq, Vec3.sub_eq, Vec3.scale_eq, Vec3.cross, Vec3.dot,
      Vec3.normSq_eq]
    ring

theorem coupling_neg (ρ θ v : Vec3 ℝ) (a b c d : ℝ) :
    coupling (-ρ) (-θ) a b c d v = coupling ρ θ (-a) b (-c) d v := by
  ext <;>
  · simp only [coupling, Vec3.add_eq, Vec3.neg_eq, Vec3.scale_eq, Vec3.cross, Vec3.dot]
    ring

/-- A series applied to a coupling is a coupling, up to multiples of `θ × (ρ × v)` and
`θ × (θ × (ρ × v))`. -/
theorem series_coupling (ρ θ v : Vec3 ℝ) (s t a b c d : ℝ) : series θ s t (coupling ρ θ a b c d v) =
    coupling ρ θ a b (c - s * b - θ.normSq * (s * d + t * c))
    (d + s * c - t * b - θ.normSq * (t * d)) v +
      (θ.cross (ρ.cross v)).scale (s * a - t * b * θ.normSq) +
      (θ.cross (θ.cross (ρ.cross v))).scale (s * b + t * a) := by
  ext <;>
  · simp only [coupling, series, Vec3.add_eq, Vec3.scale_eq, Vec3.cross, Vec3.dot, Vec3.normSq_eq]
    ring

/-- The vector product of two series is the series of cofactors, applied to the vector product. -/
theorem series_cross_series (ρ θ v : Vec3 ℝ) (a b : ℝ) : (series θ a b ρ).cross (series θ a b v) =
    (ρ.cross v).scale ((1 - b * θ.normSq) ^ 2 + θ.normSq * a ^ 2) + (θ.cross (ρ.cross v)).scale a +
      (θ.cross (θ.cross (ρ.cross v))).scale (a ^ 2 - (1 - b * θ.normSq) * b) := by
  ext <;>
  · simp only [series, Vec3.add_eq, Vec3.scale_eq, Vec3.cross, Vec3.normSq_eq]
    ring

theorem epsilon_lt_of_lt {n : ℝ} (h : 1e-4 < n) : Scalar.epsilon < n := by
  refine lt_trans ?_ h
  rw [Scalar.epsilon_real]
  norm_num

theorem mulVec_couplingBlock (ρ θ v : Vec3 ℝ) : (Tangent.couplingBlock ρ θ).mulVec v =
    coupling ρ θ (1 / 2 + θ.normSq * (Tangent.coefficients θ.normSq).2.1)
    (Tangent.coefficients θ.normSq).1
      (-2 * (Tangent.coefficients θ.normSq).2.1 - (Tangent.coefficients θ.normSq).1)
      (2 * (Tangent.coefficients θ.normSq).2.2) v := by
  have hhalf : (0.5 : ℝ) = 1 / 2 := by norm_num
  have hthree : (1 - 3.0 : ℝ) = -2 := by norm_num
  have hexpand := mulVec_coupling ρ θ v 0.5 3.0 (Tangent.coefficients θ.normSq).1
    (Tangent.coefficients θ.normSq).2.1 (Tangent.coefficients θ.normSq).2.2
  rw [hhalf, hthree] at hexpand
  rw [← hexpand, ← hhalf]
  rfl

/-- Above the threshold of the series the three coefficients are combinations of those of the
rotations. -/
theorem coefficients_of_lt {θ : Vec3 ℝ} (h : 1e-4 < θ.normSq) : Tangent.coefficients θ.normSq =
    (c₃ θ, (c₂ θ - 1 / 2) / θ.normSq, (c₂ θ - 3 * c₃ θ) / (2 * θ.normSq)) := by
  have hpos := Vec3.norm_pos (epsilon_lt_of_lt h)
  have hsq := θ.norm_mul_norm
  have hsqrt : Scalar.sqrt θ.normSq = θ.norm := rfl
  unfold Tangent.coefficients
  refine (if_pos h).trans ?_
  simp only [hsqrt, c₂, c₃, Prod.mk.injEq, Scalar.sin_real, Scalar.cos_real]
  rw [← hsq]
  norm_num only
  refine ⟨?_, ?_, ?_⟩
  · field_simp
  · field_simp
    ring
  · field_simp
    ring

theorem coupling_add {a b c d a' x y z w : ℝ} (hx : x + y = 0) (hz : z + w = 0) (ρ θ v : Vec3 ℝ) :
    coupling ρ θ a b c d v + (θ.cross (ρ.cross v)).scale x +
        (θ.cross (θ.cross (ρ.cross v))).scale z +
      ((ρ.cross v).scale a' + (θ.cross (ρ.cross v)).scale y +
        (θ.cross (θ.cross (ρ.cross v))).scale w) =
      coupling ρ θ (a + a') b c d v := by
  rw [eq_neg_of_add_eq_zero_left hx, eq_neg_of_add_eq_zero_left hz]
  ext <;>
  · simp only [coupling, Vec3.add_eq, Vec3.scale_eq]
    ring

theorem rotate_exp_couplingBlock_neg {θ : Vec3 ℝ} (h : 1e-4 < θ.normSq) (ρ v : Vec3 ℝ) :
    (SO3.exp θ).rotate ((Tangent.couplingBlock (-ρ) (-θ)).mulVec v) +
      ((SO3.leftJacobian θ).mulVec ρ).cross ((SO3.leftJacobian θ).mulVec v) =
      (Tangent.couplingBlock ρ θ).mulVec v := by
  have hlarge := epsilon_lt_of_lt h
  have hn : θ.normSq ≠ 0 := (Scalar.epsilon_pos.trans hlarge).ne'
  have h1 := c₁_add hlarge
  have h2 := c₁_sq_add hlarge
  rw [mulVec_couplingBlock, mulVec_couplingBlock, Vec3.normSq_neg, coefficients_of_lt h,
    coupling_neg, rotate_exp hlarge, series_coupling, mulVec_leftJacobian_eq hlarge,
    mulVec_leftJacobian_eq hlarge, series_cross_series]
  generalize c₁ θ = s at *
  generalize c₂ θ = a at *
  generalize c₃ θ = b at *
  -- What the two coefficients that carry `θ · ρ` are, times `|θ|²`.
  have hhalf : 1 / 2 + θ.normSq * ((a - 1 / 2) / θ.normSq) = a := by
    field_simp
    ring
  have hc : θ.normSq * (2 * ((a - 1 / 2) / θ.normSq) + b) = 2 * a - s := by
    field_simp
    linear_combination h1
  have hd : θ.normSq * (2 * ((a - 3 * b) / (2 * θ.normSq))) = a - 3 * b := by field_simp
  have hs : 1 - b * θ.normSq = s := by linear_combination -h1
  simp only [hhalf, hs]
  rw [coupling_add (by linear_combination -a * h1) (by ring)]
  congr 1
  · linear_combination h2
  · refine mul_left_cancel₀ hn ?_
    linear_combination (2 - θ.normSq * a) * hc - s * θ.normSq * hd - 2 * h2 + 2 * s * h1
  · refine mul_left_cancel₀ hn ?_
    linear_combination s * hc - θ.normSq * a * hd - h2 + 2 * a * h1

theorem leftJacobian_mul_inv {τ : Tangent ℝ} (h : Scalar.epsilon < τ.θ.normSq)
    (hsin : Real.sin τ.θ.norm ≠ 0) : τ.leftJacobian * τ.leftJacobianInv = Mat.identity 6 := by
  have hinv := SO3.leftJacobian_mul_inv h hsin
  have hcancel : ∀ v, (SO3.leftJacobian τ.θ).mulVec ((SO3.leftJacobianInv τ.θ).mulVec v) =
      v := fun v => by
    rw [← Mat3.mulVec_mul, hinv, Mat3.mulVec_identity]
  unfold Tangent.leftJacobian Tangent.leftJacobianInv
  rw [Mat3.blockUpper_mul, hinv, ← Mat3.blockUpper_identity]
  congr 1
  refine Mat3.ext_mulVec fun v => ?_
  simp only [Mat3.add_mulVec, Mat3.mulVec_mul, Mat3.neg_mulVec, Mat3.mulVec_neg, hcancel,
    Mat3.mulVec_hat]
  ext <;> simp [Vec3.add_eq, Vec3.neg_eq, Vec3.zero, Vec3.cross]

theorem leftJacobian_eq_adjoint_mul {τ : Tangent ℝ} (h : 1e-4 < τ.θ.normSq) :
    τ.leftJacobian = LieStructure.adjoint τ.exp * (-τ).leftJacobian := by
  have hlarge := epsilon_lt_of_lt h
  have hrotation : τ.exp.rotation.rotationMatrix * SO3.leftJacobian (-τ.θ) = SO3.leftJacobian τ.θ :=
    SO3.rotationMatrix_mul_leftJacobian_neg hlarge
  have hneg : (-τ).leftJacobian =
      Mat3.blockUpper (SO3.leftJacobian (-τ.θ)) (Tangent.couplingBlock (-τ.ρ) (-τ.θ)) := rfl
  have hshift : τ.exp.shift = (SO3.leftJacobian τ.θ).mulVec τ.ρ := rfl
  rw [adjoint_eq, hneg, Mat3.blockUpper_mul, hrotation]
  unfold Tangent.leftJacobian
  congr 1
  refine Mat3.ext_mulVec fun v => ?_
  rw [← rotate_exp_couplingBlock_neg h, Mat3.add_mulVec, Mat3.mulVec_mul, Mat3.mulVec_mul,
    Mat3.mulVec_mul, Mat3.mulVec_hat, ← Mat3.mulVec_mul _ (SO3.leftJacobian _), hrotation, hshift]
  exact congrArg (· + _) (SO3.mulVec_rotationMatrix (SO3.normSq_exp τ.θ) _).symm

/-- The inverse of the left Jacobian of a rigid motion is the identity only at zero: without a
rotation the coupling block is half the vector product with the shift. -/
theorem leftJacobianInv_eq_identity {τ : Tangent ℝ} :
    τ.leftJacobianInv = Mat.identity 6 ↔ τ = ⟨Vec3.zero, Vec3.zero⟩ := by
  have hinv : SO3.leftJacobianInv (Vec3.zero : Vec3 ℝ) = Mat3.identity :=
    SO3.leftJacobianInv_eq_identity.mpr rfl
  have hblock : ∀ ρ v : Vec3 ℝ,
      (Tangent.couplingBlock ρ Vec3.zero).mulVec v = (ρ.cross v).scale (1 / 2) := fun ρ v => by
    rw [mulVec_couplingBlock]
    ext <;> simp [coupling, Vec3.add_eq, Vec3.scale_eq, Vec3.cross, Vec3.zero, Vec3.dot,
      Vec3.normSq_eq]
  unfold Tangent.leftJacobianInv
  rw [← Mat3.blockUpper_identity, Mat3.blockUpper_inj, SO3.leftJacobianInv_eq_identity]
  constructor
  · rintro ⟨hθ, hcoupling⟩
    rw [hθ, hinv] at hcoupling
    refine SE3.Tangent.ext ?_ hθ
    refine Vec3.eq_zero_of_cross fun v => ?_
    have hzero : -(τ.ρ.cross v).scale (1 / 2) = Vec3.zero.cross v := by
      have happlied := congrArg (Mat3.mulVec · v) hcoupling
      simpa only [Mat3.mulVec_mul, Mat3.neg_mulVec, Mat3.mulVec_identity, hblock, Mat3.mulVec_hat]
        using happlied
    simp only [Vec3.cross, Vec3.scale_eq, Vec3.neg_eq, Vec3.zero, Vec3.mk.injEq] at hzero ⊢
    obtain ⟨hx, hy, hz⟩ := hzero
    refine ⟨?_, ?_, ?_⟩ <;> linarith
  · rintro rfl
    refine ⟨rfl, Mat3.ext_mulVec fun v => ?_⟩
    simp only [hinv, Mat3.mulVec_mul, Mat3.neg_mulVec, Mat3.mulVec_identity, hblock,
      Mat3.mulVec_hat]
    ext <;> simp [Vec3.cross, Vec3.scale_eq, Vec3.neg_eq, Vec3.zero]

end SE3

/-! ### All groups -/

theorem SO3.rightJacobianInv_eq_identity {φ : Vec3 ℝ} :
    rightJacobianInv (SO3 ℝ) φ = Mat.identity 3 ↔ φ = Vec3.zero := by
  change (leftJacobianInv φ).transpose.toMat = _ ↔ _
  rw [← Mat3.toMat_identity, Mat3.toMat_inj, ← leftJacobianInv_eq_identity]
  constructor
  · intro h
    exact congrArg Mat3.transpose h
  · intro h
    exact congrArg Mat3.transpose h

theorem SE3.rightJacobianInv_eq_identity {τ : Tangent ℝ} :
    rightJacobianInv (SE3 ℝ) τ = Mat.identity 6 ↔ τ = ⟨Vec3.zero, Vec3.zero⟩ := by
  change (-τ).leftJacobianInv = _ ↔ _
  have hneg : ∀ v : Vec3 ℝ, -v = Vec3.zero ↔ v = Vec3.zero := fun v => by
    simp [Vec3.neg_eq, Vec3.zero, Vec3.ext_iff]
  rw [leftJacobianInv_eq_identity, SE3.Tangent.ext_iff, SE3.Tangent.ext_iff]
  exact and_congr (hneg τ.ρ) (hneg τ.θ)

/-- The Jacobians at a tangent vector with `n` coordinates are inverse to those of the logarithm. -/
structure HasInverseJacobians (G : Type) {T : Type} [LieStructure ℝ G T] (n : ℕ) (τ : T) :
    Prop where
  right_mul_inv : rightJacobian G τ * rightJacobianInv G τ = Mat.identity n
  left_mul_inv : leftJacobian G τ * leftJacobianInv G τ = Mat.identity n

theorem SE2.hasInverseJacobians {τ : Tangent ℝ} (h : Scalar.epsilon < τ.θ * τ.θ)
    (hcos : Real.cos τ.θ ≠ 1) : HasInverseJacobians (SE2 ℝ) 3 τ where
  right_mul_inv := Tangent.rightJacobian_mul_inv h hcos
  left_mul_inv := by
    change τ.leftJacobian * τ.leftJacobianInv = _
    rw [show τ = ⟨τ.x, τ.y, τ.θ⟩ from rfl, Tangent.leftJacobian_eq h.le,
      Tangent.leftJacobianInv_eq h hcos]
    exact Tangent.rightJacobian_mul_inv (by rwa [neg_mul_neg]) (by rwa [Real.cos_neg])

theorem SO3.hasInverseJacobians {φ : Vec3 ℝ} (h : Scalar.epsilon < φ.normSq)
    (hsin : Real.sin φ.norm ≠ 0) : HasInverseJacobians (SO3 ℝ) 3 φ where
  right_mul_inv := by
    change (leftJacobian φ).transpose.toMat * (leftJacobianInv φ).transpose.toMat = _
    rw [transpose_leftJacobian h, transpose_leftJacobianInv h, ← Mat3.toMat_mul,
      leftJacobian_mul_inv (by rwa [Vec3.normSq_neg]) (by rwa [Vec3.norm_neg]), Mat3.toMat_identity]
  left_mul_inv := by
    change (leftJacobian φ).toMat * (leftJacobianInv φ).toMat = _
    rw [← Mat3.toMat_mul, leftJacobian_mul_inv h hsin, Mat3.toMat_identity]

theorem SE3.hasInverseJacobians {τ : Tangent ℝ} (h : Scalar.epsilon < τ.θ.normSq)
    (hsin : Real.sin τ.θ.norm ≠ 0) : HasInverseJacobians (SE3 ℝ) 6 τ where
  right_mul_inv := by
    have hneg : (-τ).θ = -τ.θ := rfl
    exact leftJacobian_mul_inv (by rwa [hneg, Vec3.normSq_neg]) (by rwa [hneg, Vec3.norm_neg])
  left_mul_inv := leftJacobian_mul_inv h hsin

/-- **The Jacobians of the exponential and of the logarithm are inverse to each other, and the left
Jacobian is the right one moved past the exponential.** -/
theorem jacobians_invert :
    (∀ τ : SE2.Tangent ℝ, Scalar.epsilon < τ.θ * τ.θ → Real.cos τ.θ ≠ 1 →
      HasInverseJacobians (SE2 ℝ) 3 τ) ∧
      (∀ φ : Vec3 ℝ, Scalar.epsilon < φ.normSq → Real.sin φ.norm ≠ 0 →
        HasInverseJacobians (SO3 ℝ) 3 φ) ∧
      (∀ τ : SE3.Tangent ℝ, Scalar.epsilon < τ.θ.normSq → Real.sin τ.θ.norm ≠ 0 →
        HasInverseJacobians (SE3 ℝ) 6 τ) ∧
      (∀ τ : SE2.Tangent ℝ, Scalar.epsilon < τ.θ * τ.θ →
        leftJacobian (SE2 ℝ) τ = adjoint (exp τ : SE2 ℝ) * rightJacobian (SE2 ℝ) τ) ∧
      (∀ φ : Vec3 ℝ, Scalar.epsilon < φ.normSq →
        leftJacobian (SO3 ℝ) φ = adjoint (exp φ : SO3 ℝ) * rightJacobian (SO3 ℝ) φ) ∧
      ∀ τ : SE3.Tangent ℝ, 1e-4 < τ.θ.normSq →
        leftJacobian (SE3 ℝ) τ = adjoint (exp τ : SE3 ℝ) * rightJacobian (SE3 ℝ) τ := by
  refine ⟨fun τ => SE2.hasInverseJacobians, fun φ => SO3.hasInverseJacobians,
    fun τ => SE3.hasInverseJacobians, fun τ h => SE2.Tangent.leftJacobian_eq_adjoint_mul h.le,
    fun φ h => ?_, fun τ => SE3.leftJacobian_eq_adjoint_mul⟩
  change (SO3.leftJacobian φ).toMat =
    (SO3.exp φ).rotationMatrix.toMat * (SO3.leftJacobian φ).transpose.toMat
  rw [SO3.transpose_leftJacobian h, ← Mat3.toMat_mul, SO3.rotationMatrix_mul_leftJacobian_neg h]

namespace QuarterTurn

theorem jacobians_invert_turn :
    HasInverseJacobians (SE2 ℝ) 3 ⟨1, 2, turn.z⟩ ∧ HasInverseJacobians (SO3 ℝ) 3 turn ∧
      HasInverseJacobians (SE3 ℝ) 6 ⟨⟨1, 2, 3⟩, turn⟩ ∧
      leftJacobian (SE2 ℝ) ⟨1, 2, turn.z⟩ =
        adjoint (exp (⟨1, 2, turn.z⟩ : SE2.Tangent ℝ) : SE2 ℝ) *
          rightJacobian (SE2 ℝ) ⟨1, 2, turn.z⟩ ∧
      leftJacobian (SO3 ℝ) turn = adjoint (exp turn : SO3 ℝ) * rightJacobian (SO3 ℝ) turn ∧
      leftJacobian (SE3 ℝ) ⟨⟨1, 2, 3⟩, turn⟩ =
        adjoint (exp (⟨⟨1, 2, 3⟩, turn⟩ : SE3.Tangent ℝ) : SE3 ℝ) *
          rightJacobian (SE3 ℝ) ⟨⟨1, 2, 3⟩, turn⟩ := by
  have hcos : Real.cos turn.z ≠ 1 := by norm_num [turn_z_eq]
  have hsin : Real.sin turn.norm ≠ 0 := by norm_num [norm_turn]
  have hlarge : Scalar.epsilon < turn.normSq := normSq_turn ▸ epsilon_lt_one.trans one_lt_turn
  have hseries : (1e-4 : ℝ) < turn.normSq := normSq_turn ▸ lt_trans (by norm_num) one_lt_turn
  obtain ⟨hmotion2, hrotation, hmotion3, hleft2, hleft, hleft3⟩ := jacobians_invert
  exact ⟨hmotion2 _ (epsilon_lt_one.trans one_lt_turn) hcos, hrotation _ hlarge hsin,
    hmotion3 _ hlarge hsin, hleft2 _ (epsilon_lt_one.trans one_lt_turn), hleft _ hlarge,
    hleft3 _ hseries⟩

end QuarterTurn

end Smoothing
