import Mathlib
import Smoothing.Proofs.Config.Update
import Smoothing.Proofs.Lie.Rotation3

/-!
# Updates in the groups of space

A rotation or a rigid motion of space is updated and compared exactly, over the real numbers: the
difference to an updated value is the update (`Value.localCoords_plus_so3`,
`Value.localCoords_plus_se3`). For rigid motions the logarithm multiplies the shift by `J⁻¹` where
the exponential multiplied it by `J`. Both are series in the vector product with the rotation vector
`θ`, and since three vector products with `θ` are one times `-|θ|²`, their product is again such a
series, with coefficients that vanish (`SO3.leftJacobianInv_leftJacobian`).
-/

namespace Smoothing

attribute [ext] SE3 SE3.Tangent

namespace Mat3

theorem add_eq (m n : Mat3 ℝ) : m + n = ⟨m.r0 + n.r0, m.r1 + n.r1, m.r2 + n.r2⟩ := rfl

theorem sub_eq (m n : Mat3 ℝ) : m - n = ⟨m.r0 - n.r0, m.r1 - n.r1, m.r2 - n.r2⟩ := rfl

theorem mul_eq (m n : Mat3 ℝ) :
    m * n = ⟨n.transpose.mulVec m.r0, n.transpose.mulVec m.r1, n.transpose.mulVec m.r2⟩ :=
  rfl

end Mat3

namespace SO3

/-! ### The Jacobian of the exponential -/

/-- The vector `v + a θ × v + b θ × (θ × v)`. -/
def series {α : Type} [Scalar α] (θ : Vec3 α) (a b : α) (v : Vec3 α) : Vec3 α :=
  v + (θ.cross v).scale a + (θ.cross (θ.cross v)).scale b

theorem mulVec_series (θ v : Vec3 ℝ) (a b : ℝ) :
    (Mat3.identity + θ.hat.scale a + θ.hat.scale b * θ.hat).mulVec v = series θ a b v := by
  ext <;>
  · simp only [series, Mat3.mulVec, Mat3.add_eq, Mat3.mul_eq, Mat3.scale, Mat3.identity,
      Mat3.transpose, Vec3.hat, Vec3.dot, Vec3.cross, Vec3.add_eq, Vec3.scale_eq]
    ring

theorem mulVec_series_sub (θ v : Vec3 ℝ) (a b : ℝ) :
    (Mat3.identity - θ.hat.scale a + θ.hat.scale b * θ.hat).mulVec v = series θ (-a) b v := by
  ext <;>
  · simp only [series, Mat3.mulVec, Mat3.add_eq, Mat3.sub_eq, Mat3.mul_eq, Mat3.scale,
      Mat3.identity, Mat3.transpose, Vec3.hat, Vec3.dot, Vec3.cross, Vec3.add_eq, Vec3.sub_eq,
      Vec3.scale_eq]
    ring

theorem series_series (θ v : Vec3 ℝ) (a b c d : ℝ) :
    series θ a b (series θ c d v) =
      series θ (a + c - θ.normSq * (a * d + b * c)) (b + d + a * c - θ.normSq * (b * d)) v := by
  ext <;>
  · simp only [series, Vec3.cross, Vec3.add_eq, Vec3.scale_eq, Vec3.normSq_eq]
    ring

theorem series_zero (θ v : Vec3 ℝ) : series θ 0 0 v = v := by
  ext <;> simp only [series, Vec3.add_eq, Vec3.scale_eq, mul_zero, add_zero]

theorem mulVec_leftJacobian {θ : Vec3 ℝ} (h : Scalar.epsilon < θ.normSq) (v : Vec3 ℝ) :
    (leftJacobian θ).mulVec v = series θ ((1 - Real.cos θ.norm) / θ.normSq)
      ((θ.norm - Real.sin θ.norm) / (θ.normSq * θ.norm)) v := by
  unfold leftJacobian
  rw [if_neg (not_le.mpr h)]
  exact mulVec_series _ _ _ _

theorem mulVec_leftJacobianInv {θ : Vec3 ℝ} (h : Scalar.epsilon < θ.normSq) (v : Vec3 ℝ) :
    (leftJacobianInv θ).mulVec v = series θ (-(1 / 2))
      (1 / θ.normSq - (1 + Real.cos θ.norm) / (2 * θ.norm * Real.sin θ.norm)) v := by
  unfold leftJacobianInv
  rw [if_neg (not_le.mpr h), ← mulVec_series_sub]
  norm_num [Vec3.norm]

theorem leftJacobianInv_leftJacobian {θ : Vec3 ℝ} (h : Scalar.epsilon < θ.normSq)
    (hsin : Real.sin θ.norm ≠ 0) (v : Vec3 ℝ) :
    (leftJacobianInv θ).mulVec ((leftJacobian θ).mulVec v) = v := by
  have ht : θ.norm ≠ 0 := (Vec3.norm_pos h).ne'
  have hcircle := Real.sin_sq_add_cos_sq θ.norm
  rw [mulVec_leftJacobian h, mulVec_leftJacobianInv h, series_series, ← Vec3.norm_mul_norm]
  generalize θ.norm = t at *
  generalize Real.sin t = s at *
  generalize Real.cos t = c at *
  convert series_zero θ v using 2
  · field_simp
    linear_combination -t * hcircle
  · field_simp
    ring

theorem leftJacobianInv_leftJacobian_zero (v : Vec3 ℝ) :
    (leftJacobianInv Vec3.zero).mulVec ((leftJacobian Vec3.zero).mulVec v) = v := by
  have hsmall : (Vec3.zero : Vec3 ℝ).normSq ≤ Scalar.epsilon :=
    Vec3.normSq_zero ▸ Scalar.epsilon_pos.le
  unfold leftJacobianInv leftJacobian
  rw [if_pos hsmall, if_pos hsmall]
  ext <;>
  · simp [Mat3.mulVec, Mat3.add_eq, Mat3.sub_eq, Mat3.mul_eq, Mat3.scale, Mat3.unscale,
      Mat3.identity, Mat3.transpose, Vec3.hat, Vec3.dot, Vec3.zero, Vec3.map, Vec3.add_eq,
      Vec3.sub_eq, Vec3.scale_eq]

end SO3

/-! ### Rigid motions -/

namespace SE3

theorem inverse_compose_cancel {g : SE3 ℝ} (h : g.rotation.normSq = 1) (k : SE3 ℝ) :
    g.inverse.compose (g.compose k) = k := by
  have hshift : g.rotation.inverse.rotate (g.rotation.rotate k.shift + g.shift) +
      -g.rotation.inverse.rotate g.shift =
      k.shift := by
    rw [SO3.rotate_add, SO3.rotate_inverse_rotate h]
    ext <;> simp only [Vec3.add_eq, Vec3.neg_eq] <;> ring
  exact SE3.ext hshift (SO3.inverse_compose_cancel h _)

/-- **A tangent vector with a rotation of less than half a turn is the logarithm of its
exponential.** -/
theorem log_exp {τ : Tangent ℝ} (hpi : τ.θ.norm < Real.pi)
    (h : τ.θ = Vec3.zero ∨ Scalar.epsilon < Real.sin (τ.θ.norm / 2) ^ 2) : log τ.exp = τ := by
  have hrotation : SO3.log (SO3.exp τ.θ) = τ.θ :=
    SO3.log_exp hpi (h.imp_left fun h0 => by rw [h0, Vec3.normSq_zero]; exact Scalar.epsilon_pos.le)
  have hshift : (SO3.leftJacobianInv τ.θ).mulVec ((SO3.leftJacobian τ.θ).mulVec τ.ρ) = τ.ρ := by
    rcases h with h0 | hlarge
    · rw [h0]
      exact SO3.leftJacobianInv_leftJacobian_zero τ.ρ
    · have hpos := Vec3.norm_pos (SO3.epsilon_lt_normSq hlarge)
      exact SO3.leftJacobianInv_leftJacobian (SO3.epsilon_lt_normSq hlarge)
        (Real.sin_pos_of_pos_of_lt_pi hpos hpi).ne' τ.ρ
  change (⟨(SO3.leftJacobianInv (SO3.log (SO3.exp τ.θ))).mulVec ((SO3.leftJacobian τ.θ).mulVec τ.ρ),
    SO3.log (SO3.exp τ.θ)⟩ : Tangent ℝ) = τ
  rw [hrotation, hshift]

end SE3

/-! ### Values -/

namespace Value

theorem localCoords_plus_so3 {x : SO3 ℝ} (hx : x.normSq = 1) {φ : Vec3 ℝ} (hpi : φ.norm < Real.pi)
    (h : φ.normSq ≤ Scalar.epsilon ∨ Scalar.epsilon < Real.sin (φ.norm / 2) ^ 2) :
    (so3 x).localCoords ((so3 x).plus ⟨φ.toList⟩) = .ok ⟨φ.toList⟩ := by
  change Except.ok (⟨(SO3.log (x.inverse.compose (x.compose (SO3.exp φ)))).toList⟩ : Vec ℝ) = _
  rw [SO3.inverse_compose_cancel hx, SO3.log_exp hpi h]

theorem localCoords_plus_se3 {x : SE3 ℝ} (hx : x.rotation.normSq = 1) {τ : SE3.Tangent ℝ}
    (hpi : τ.θ.norm < Real.pi)
    (h : τ.θ = Vec3.zero ∨ Scalar.epsilon < Real.sin (τ.θ.norm / 2) ^ 2) :
    (se3 x).localCoords ((se3 x).plus τ.coords) = .ok τ.coords := by
  change Except.ok (SE3.log (x.inverse.compose (x.compose τ.exp))).coords = _
  rw [SE3.inverse_compose_cancel hx, SE3.log_exp hpi h]

theorem retract_real {x : Value ℝ} {v : Vec ℝ} (h : v.size = x.dim) :
    x.retract v = .ok (x.plus v) :=
  retract_eq_ok_iff.mpr ⟨h, by simp [Vec.allFinite], rfl⟩

/-- **Updates and differences of rotations and rigid motions of space undo each other**, below half
a turn and away from the gap between the thresholds of the exponential and the logarithm. The
exponential of the logarithm of a rotation is that rotation, as one of its two quaternions, and both
have one logarithm, of at most half a turn. -/
theorem update_difference_space :
    (∀ x : SO3 ℝ, x.normSq = 1 → ∀ φ : Vec3 ℝ, φ.norm < Real.pi →
        φ.normSq ≤ Scalar.epsilon ∨ Scalar.epsilon < Real.sin (φ.norm / 2) ^ 2 →
        ∃ y, (so3 x).retract ⟨φ.toList⟩ = .ok y ∧ (so3 x).localCoords y = .ok ⟨φ.toList⟩) ∧
      (∀ x : SE3 ℝ, x.rotation.normSq = 1 → ∀ τ : SE3.Tangent ℝ, τ.θ.norm < Real.pi →
        τ.θ = Vec3.zero ∨ Scalar.epsilon < Real.sin (τ.θ.norm / 2) ^ 2 →
        ∃ y, (se3 x).retract τ.coords = .ok y ∧ (se3 x).localCoords y = .ok τ.coords) ∧
      ∀ q : SO3 ℝ, q.normSq = 1 → Scalar.epsilon < q.vector.normSq →
        (SO3.exp (SO3.log q) = q ∨ SO3.exp (SO3.log q) = q.opposite) ∧
          (∀ p, (SO3.exp (SO3.log q)).rotate p = q.rotate p) ∧
          (SO3.log q).norm ≤ Real.pi ∧ (q.w ≠ 0 → SO3.log q.opposite = SO3.log q) := by
  refine ⟨fun x hx φ hpi h => ?_, fun x hx τ hpi h => ?_, fun q hq h => ?_⟩
  · exact ⟨_, retract_real rfl, localCoords_plus_so3 hx hpi h⟩
  · exact ⟨_, retract_real rfl, localCoords_plus_se3 hx hpi h⟩
  · refine ⟨?_, fun p => ?_, SO3.norm_log_le h, SO3.log_opposite h⟩
    · rw [SO3.exp_log hq h]
      split_ifs
      · exact .inr rfl
      · exact .inl rfl
    · rw [SO3.exp_log hq h]
      split_ifs
      · exact SO3.rotate_opposite q p
      · rfl

end Value

/-! ### A quarter turn

About the third axis, as an update of a rotation and of a rigid motion; and a rotation stored with a
negative scalar part. -/

namespace QuarterTurn

noncomputable def turn : Vec3 ℝ := ⟨0, 0, 0.5 * Real.pi⟩

noncomputable def start : SO3 ℝ := ⟨0.5, 0.5, 0.5, 0.5⟩

noncomputable def stored : SO3 ℝ := ⟨-0.6, 0.8, 0, 0⟩

theorem normSq_start : start.normSq = 1 := by norm_num [start, SO3.normSq]

theorem normSq_stored : stored.normSq = 1 := by norm_num [stored, SO3.normSq]

theorem norm_turn : turn.norm = Real.pi / 2 := by
  have hhalf : (0.5 : ℝ) * Real.pi = Real.pi / 2 := by
    norm_num
    ring
  simp only [Vec3.norm, Vec3.normSq_eq, turn, hhalf, mul_zero, zero_add, Scalar.sqrt_real]
  exact Real.sqrt_mul_self (by positivity)

theorem turn_lt_pi : turn.norm < Real.pi := by
  rw [norm_turn]
  linarith [Real.pi_pos]

theorem epsilon_lt_turn : Scalar.epsilon < Real.sin (turn.norm / 2) ^ 2 := by
  have hquarter : Real.pi / 2 / 2 = Real.pi / 4 := by ring
  rw [norm_turn, hquarter, Real.sin_pi_div_four, div_pow, Real.sq_sqrt zero_le_two,
    Scalar.epsilon_real]
  norm_num

theorem update_difference_turn :
    (∃ y, (Value.so3 start).retract ⟨turn.toList⟩ = .ok y ∧
      (Value.so3 start).localCoords y = .ok ⟨turn.toList⟩) ∧
      (∃ y, (Value.se3 ⟨turn, start⟩).retract (SE3.Tangent.coords ⟨turn, turn⟩) = .ok y ∧
        (Value.se3 ⟨turn, start⟩).localCoords y = .ok (SE3.Tangent.coords ⟨turn, turn⟩)) ∧
      (SO3.exp (SO3.log stored) = stored ∨ SO3.exp (SO3.log stored) = stored.opposite) ∧
        (∀ p, (SO3.exp (SO3.log stored)).rotate p = stored.rotate p) ∧
        (SO3.log stored).norm ≤ Real.pi ∧ SO3.log stored.opposite = SO3.log stored := by
  have hlarge : Scalar.epsilon < stored.vector.normSq := by
    norm_num [Scalar.epsilon_real, Vec3.normSq_eq, SO3.vector, stored]
  obtain ⟨hsame, hrotate, hle, hopposite⟩ :=
    Value.update_difference_space.2.2 stored normSq_stored hlarge
  exact ⟨Value.update_difference_space.1 start normSq_start turn turn_lt_pi (.inr epsilon_lt_turn),
    Value.update_difference_space.2.1 ⟨turn, start⟩ normSq_start ⟨turn, turn⟩ turn_lt_pi
    (.inr epsilon_lt_turn), hsame, hrotate, hle, hopposite (by norm_num [stored])⟩

end QuarterTurn

end Smoothing
