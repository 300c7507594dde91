import Mathlib
import Smoothing.Lie.Rotation3
import Smoothing.Proofs.Real

/-!
# Exponential and logarithm of rotations of space

Over the real numbers the quaternions of length one satisfy the group laws. The logarithm finds a
rotation vector `φ` of less than half a turn again (`SO3.log_exp`), if `φ` is short enough for the
series of both maps or long enough for the closed form of both: `|φ|² ≤ ε`, or `ε < sin² (|φ| / 2)`.
The exponential of a logarithm is the quaternion or its negative, which is the same rotation
(`SO3.exp_log`), and the logarithm does not depend on which of the two is taken
(`SO3.log_opposite`).
-/

namespace Smoothing

attribute [ext] Vec3 Mat3 SO3

namespace Vec3

theorem add_eq (u v : Vec3 ℝ) : u + v = ⟨u.x + v.x, u.y + v.y, u.z + v.z⟩ := rfl

theorem sub_eq (u v : Vec3 ℝ) : u - v = ⟨u.x - v.x, u.y - v.y, u.z - v.z⟩ := rfl

theorem neg_eq (v : Vec3 ℝ) : -v = ⟨-v.x, -v.y, -v.z⟩ := rfl

theorem scale_eq (v : Vec3 ℝ) (c : ℝ) : v.scale c = ⟨v.x * c, v.y * c, v.z * c⟩ := rfl

theorem normSq_eq (v : Vec3 ℝ) : v.normSq = v.x * v.x + v.y * v.y + v.z * v.z := rfl

theorem normSq_nonneg (v : Vec3 ℝ) : 0 ≤ v.normSq :=
  add_nonneg (add_nonneg (mul_self_nonneg _) (mul_self_nonneg _)) (mul_self_nonneg _)

theorem normSq_zero : (zero : Vec3 ℝ).normSq = 0 := by
  simp [normSq_eq, zero]

theorem norm_mul_norm (v : Vec3 ℝ) : v.norm * v.norm = v.normSq :=
  Real.mul_self_sqrt v.normSq_nonneg

theorem norm_pos {v : Vec3 ℝ} (h : Scalar.epsilon < v.normSq) : 0 < v.norm :=
  Real.sqrt_pos.mpr (Scalar.epsilon_pos.trans h)

theorem normSq_scale (v : Vec3 ℝ) (c : ℝ) : (v.scale c).normSq = v.normSq * (c * c) := by
  simp only [normSq_eq, scale_eq]
  ring

theorem norm_scale (v : Vec3 ℝ) (c : ℝ) : (v.scale c).norm = v.norm * |c| := by
  unfold norm
  rw [normSq_scale, Scalar.sqrt_real, Real.sqrt_mul v.normSq_nonneg, Real.sqrt_mul_self_eq_abs]
  rfl

theorem scale_scale (v : Vec3 ℝ) (c d : ℝ) : (v.scale c).scale d = v.scale (c * d) := by
  ext <;> simp only [scale_eq] <;> ring

theorem scale_one (v : Vec3 ℝ) : v.scale 1 = v := by
  ext <;> simp only [scale_eq, mul_one]

theorem neg_scale_neg (v : Vec3 ℝ) (c : ℝ) : (-v).scale (-c) = v.scale c := by
  ext <;> simp only [scale_eq, neg_eq, neg_mul_neg]

theorem normSq_neg (v : Vec3 ℝ) : (-v).normSq = v.normSq := by
  simp only [normSq_eq, neg_eq, neg_mul_neg]

end Vec3

namespace SO3

/-! ### Group laws -/

theorem compose_assoc (p q r : SO3 ℝ) : (p.compose q).compose r = p.compose (q.compose r) := by
  ext <;> simp only [compose] <;> ring

theorem identity_compose (q : SO3 ℝ) : identity.compose q = q := by
  ext <;> simp only [compose, identity] <;> ring

theorem inverse_compose {q : SO3 ℝ} (h : q.normSq = 1) : q.inverse.compose q = identity := by
  unfold normSq at h
  ext
  · simp only [compose, inverse, identity]
    linear_combination h
  · simp only [compose, inverse, identity]
    ring
  · simp only [compose, inverse, identity]
    ring
  · simp only [compose, inverse, identity]
    ring

theorem inverse_compose_cancel {q : SO3 ℝ} (h : q.normSq = 1) (r : SO3 ℝ) :
    q.inverse.compose (q.compose r) = r := by
  rw [← compose_assoc, inverse_compose h, identity_compose]

theorem rotate_add (q : SO3 ℝ) (u v : Vec3 ℝ) : q.rotate (u + v) = q.rotate u + q.rotate v := by
  ext <;> simp only [rotate, vector, Vec3.cross, Vec3.scale_eq, Vec3.add_eq] <;> ring

/-- The vector part of a quaternion turns `p` by `2 w v × p + 2 v × (v × p)`, and the terms of `p`
that are left over when it is turned back are multiples of `|q|² - 1`. -/
theorem rotate_inverse_rotate {q : SO3 ℝ} (h : q.normSq = 1) (p : Vec3 ℝ) :
    q.inverse.rotate (q.rotate p) = p := by
  have hback : ∀ d : Vec3 ℝ, d = q.vector.cross (q.vector.cross p) →
      q.inverse.rotate (q.rotate p) = p + d.scale (4 * (1 - q.normSq)) := by
    rintro d rfl
    ext <;>
    · simp only [rotate, vector, inverse, Vec3.cross, Vec3.scale_eq, Vec3.add_eq,
        Scalar.two_real, normSq]
      ring
  rw [hback _ rfl, h]
  ext <;> simp only [Vec3.add_eq, Vec3.scale_eq] <;> ring

/-- The other quaternion of a rotation. -/
def opposite {α : Type} [Scalar α] (q : SO3 α) : SO3 α := ⟨-q.w, -q.i, -q.j, -q.k⟩

theorem rotate_opposite (q : SO3 ℝ) (p : Vec3 ℝ) : q.opposite.rotate p = q.rotate p := by
  ext <;> simp only [rotate, opposite, vector, Vec3.cross, Vec3.scale_eq, Vec3.add_eq] <;> ring

theorem vector_opposite (q : SO3 ℝ) : q.opposite.vector = -q.vector := rfl

theorem normSq_eq (q : SO3 ℝ) : q.normSq = q.w * q.w + q.vector.normSq := by
  simp only [normSq, vector, Vec3.normSq_eq]
  ring

theorem vector_ofParts (w : ℝ) (v : Vec3 ℝ) : (ofParts w v).vector = v := rfl

theorem ofParts_vector (q : SO3 ℝ) : ofParts q.w q.vector = q := rfl

/-! ### The exponential -/

/-- A short rotation vector is half of the vector part before the quaternion is brought to length
one. -/
theorem exp_of_le {φ : Vec3 ℝ} (h : φ.normSq ≤ Scalar.epsilon) :
    exp φ = ofParts (1 / Real.sqrt (1 + φ.normSq / 4))
    (φ.scale (1 / (2 * Real.sqrt (1 + φ.normSq / 4)))) := by
  have hnorm : norm (⟨1, φ.x / Scalar.two, φ.y / Scalar.two, φ.z / Scalar.two⟩ : SO3 ℝ) =
      Real.sqrt (1 + φ.normSq / 4) := by
    unfold norm
    rw [normSq_eq, Scalar.sqrt_real]
    congr 1
    simp only [vector, Vec3.normSq_eq, Scalar.two_real]
    ring
  unfold exp
  rw [if_neg (not_lt.mpr h), normalize, hnorm]
  ext
  · rfl
  all_goals
    simp only [ofParts, Vec3.scale_eq, Scalar.two_real]
    rw [div_div, mul_one_div]

/-- Above the threshold the exponential is `(cos (|φ| / 2), sin (|φ| / 2) φ / |φ|)`. -/
theorem exp_of_lt {φ : Vec3 ℝ} (h : Scalar.epsilon < φ.normSq) :
    exp φ = ofParts (Real.cos (φ.norm / 2)) (φ.scale (Real.sin (φ.norm / 2) / φ.norm)) := by
  have hhalf : φ.map (· / Scalar.two) = φ.scale (1 / 2) := by
    ext <;> simp only [Vec3.map, Vec3.scale_eq, Scalar.two_real] <;> ring
  have hsq : (φ.scale (1 / 2)).normSq = φ.norm / 2 * (φ.norm / 2) := by
    rw [Vec3.normSq_scale, ← φ.norm_mul_norm]
    ring
  have hlarge : ¬ φ.norm / 2 * (φ.norm / 2) ≤ Scalar.epsilon * Scalar.epsilon := by
    have hnorm := φ.norm_mul_norm
    rw [Scalar.epsilon_real] at h ⊢
    nlinarith
  have hpos := Vec3.norm_pos h
  unfold exp ofAxisAngle
  simp only [if_pos h, hhalf, hsq, if_neg hlarge]
  rw [Scalar.sqrt_real, Real.sqrt_mul_self (by positivity), Vec3.scale_scale, Scalar.cos_real,
    Scalar.sin_real]
  congr 2
  field_simp

/-! ### The logarithm -/

theorem log_of_le {q : SO3 ℝ} (h : q.vector.normSq ≤ Scalar.epsilon) :
    log q = q.vector.scale (2 / q.w) := by
  have hsquare : ¬ Scalar.epsilon < q.i * q.i + q.j * q.j + q.k * q.k := not_lt.mpr h
  unfold log
  simp only [if_neg hsquare, Scalar.two_real]

/-- Half of the angle, with the sign of the scalar part. -/
noncomputable def halfAngle (q : SO3 ℝ) : ℝ :=
  if q.w < 0 then Scalar.atan2 (-q.vector.norm) (-q.w) else Scalar.atan2 q.vector.norm q.w

theorem log_of_lt {q : SO3 ℝ} (h : Scalar.epsilon < q.vector.normSq) :
    log q = q.vector.scale (2 * q.halfAngle / q.vector.norm) := by
  have hsquare : Scalar.epsilon < q.i * q.i + q.j * q.j + q.k * q.k := h
  unfold log halfAngle
  simp only [if_pos hsquare, Scalar.two_real]
  split_ifs <;> rfl

section Unit

variable {q : SO3 ℝ} (hq : q.normSq = 1)
include hq

theorem unit_point : q.w * q.w + q.vector.norm * q.vector.norm = 1 := by
  rw [Vec3.norm_mul_norm, ← normSq_eq, hq]

theorem cos_halfAngle : Real.cos q.halfAngle = |q.w| := by
  have hunit := unit_point hq
  unfold halfAngle
  split_ifs with h
  · rw [Scalar.cos_atan2 (by linarith), abs_of_neg h]
  · rw [Scalar.cos_atan2 hunit, abs_of_nonneg (not_lt.mp h)]

theorem sin_halfAngle :
    Real.sin q.halfAngle = if q.w < 0 then -q.vector.norm else q.vector.norm := by
  have hunit := unit_point hq
  unfold halfAngle
  split_ifs with h
  · exact Scalar.sin_atan2 (by linarith)
  · exact Scalar.sin_atan2 hunit

end Unit

theorem abs_halfAngle_le (q : SO3 ℝ) : |q.halfAngle| ≤ Real.pi / 2 := by
  unfold halfAngle
  split_ifs with h
  · exact Complex.abs_arg_le_pi_div_two_iff.mpr (neg_nonneg.mpr h.le)
  · exact Complex.abs_arg_le_pi_div_two_iff.mpr (not_lt.mp h)

/-! ### Round trips -/

theorem log_exp_of_le {φ : Vec3 ℝ} (h : φ.normSq ≤ Scalar.epsilon) : log (exp φ) = φ := by
  obtain ⟨n, hn⟩ : ∃ n, n = Real.sqrt (1 + φ.normSq / 4) := ⟨_, rfl⟩
  have hone : 1 ≤ n :=
    hn ▸ Real.one_le_sqrt.mpr (le_add_of_nonneg_right (div_nonneg φ.normSq_nonneg (by norm_num)))
  have hexp : exp φ = ofParts (1 / n) (φ.scale (1 / (2 * n))) := hn ▸ exp_of_le h
  have hsmall : (exp φ).vector.normSq ≤ Scalar.epsilon := by
    have hle : 1 / (2 * n) ≤ 1 := by
      rw [div_le_one (by positivity)]
      linarith
    rw [hexp, vector_ofParts, Vec3.normSq_scale]
    exact (mul_le_of_le_one_right φ.normSq_nonneg (mul_le_one₀ hle (by positivity) hle)).trans h
  rw [log_of_le hsmall, hexp, vector_ofParts, Vec3.scale_scale]
  simp only [ofParts]
  convert φ.scale_one using 2
  field_simp

/-- A sine is at most its angle, so a rotation vector with a vector part above the threshold is
above it too. -/
theorem epsilon_lt_normSq {φ : Vec3 ℝ} (h : Scalar.epsilon < Real.sin (φ.norm / 2) ^ 2) :
    Scalar.epsilon < φ.normSq := by
  have hsin : Real.sin (φ.norm / 2) ^ 2 ≤ (φ.norm / 2) ^ 2 := Real.sin_sq_le_sq
  have hnorm := φ.norm_mul_norm
  nlinarith [Scalar.epsilon_pos]

theorem log_exp_of_lt {φ : Vec3 ℝ} (hpi : φ.norm < Real.pi)
    (h : Scalar.epsilon < Real.sin (φ.norm / 2) ^ 2) : log (exp φ) = φ := by
  have hlarge := epsilon_lt_normSq h
  have hpos := Vec3.norm_pos hlarge
  have hsin : 0 < Real.sin (φ.norm / 2) := Real.sin_pos_of_pos_of_lt_pi (by linarith) (by linarith)
  have hcos : 0 < Real.cos (φ.norm / 2) := Real.cos_pos_of_mem_Ioo ⟨by linarith, by linarith⟩
  have hvector : (exp φ).vector = φ.scale (Real.sin (φ.norm / 2) / φ.norm) := by
    rw [exp_of_lt hlarge, vector_ofParts]
  have hnorm : (exp φ).vector.norm = Real.sin (φ.norm / 2) := by
    rw [hvector, Vec3.norm_scale, abs_of_pos (div_pos hsin hpos), mul_div_cancel₀ _ hpos.ne']
  have hangle : (exp φ).halfAngle = φ.norm / 2 := by
    have hw : (exp φ).w = Real.cos (φ.norm / 2) := by rw [exp_of_lt hlarge, ofParts]
    rw [halfAngle, hnorm, hw, if_neg (not_lt.mpr hcos.le),
      Scalar.atan2_sin_cos ⟨by linarith, by linarith⟩]
  rw [log_of_lt (by rw [← Vec3.norm_mul_norm, hnorm, ← sq]; exact h), hangle, hnorm, hvector,
    Vec3.scale_scale]
  convert φ.scale_one using 2
  field_simp

/-- **A rotation vector of less than half a turn is the logarithm of its exponential**, if both maps
use the series or both use the closed form. -/
theorem log_exp {φ : Vec3 ℝ} (hpi : φ.norm < Real.pi)
    (h : φ.normSq ≤ Scalar.epsilon ∨ Scalar.epsilon < Real.sin (φ.norm / 2) ^ 2) :
    log (exp φ) = φ := by
  rcases h with h | h
  · exact log_exp_of_le h
  · exact log_exp_of_lt hpi h

theorem norm_log {q : SO3 ℝ} (h : Scalar.epsilon < q.vector.normSq) :
    (log q).norm = 2 * |q.halfAngle| := by
  have hpos := Vec3.norm_pos h
  rw [log_of_lt h, Vec3.norm_scale, abs_div, abs_mul, abs_two, abs_of_pos hpos,
    mul_div_cancel₀ _ hpos.ne']

theorem norm_log_le {q : SO3 ℝ} (h : Scalar.epsilon < q.vector.normSq) :
    (log q).norm ≤ Real.pi := by
  have hangle := q.abs_halfAngle_le
  rw [norm_log h]
  linarith

/-- **The exponential of the logarithm is the quaternion or its negative**: the one with a scalar
part that is not negative. -/
theorem exp_log {q : SO3 ℝ} (hq : q.normSq = 1) (h : Scalar.epsilon < q.vector.normSq) :
    exp (log q) = if q.w < 0 then q.opposite else q := by
  have hpos := Vec3.norm_pos h
  have hsin := sin_halfAngle hq
  have hsq : Real.sin q.halfAngle ^ 2 = q.vector.normSq := by
    rw [hsin, ← Vec3.norm_mul_norm]
    split_ifs <;> ring
  have hlarge : Scalar.epsilon < (log q).normSq := by
    have hle : Real.sin q.halfAngle ^ 2 ≤ q.halfAngle ^ 2 := Real.sin_sq_le_sq
    rw [← Vec3.norm_mul_norm, norm_log h]
    nlinarith [sq_abs q.halfAngle, Scalar.epsilon_pos]
  have habs : 0 < |q.halfAngle| := by
    have := Vec3.norm_pos hlarge
    rw [norm_log h] at this
    linarith
  have hfactor : 2 * q.halfAngle / q.vector.norm * (Real.sin |q.halfAngle| / (2 * |q.halfAngle|)) =
      Real.sin q.halfAngle / q.vector.norm := by
    rcases abs_choice q.halfAngle with ha | ha
    · rw [ha] at habs ⊢
      field_simp
    · have hne : q.halfAngle ≠ 0 := abs_pos.mp habs
      rw [ha, Real.sin_neg]
      field_simp
  rw [exp_of_lt hlarge, norm_log h, mul_div_cancel_left₀ _ two_ne_zero, Real.cos_abs,
    cos_halfAngle hq, log_of_lt h, Vec3.scale_scale, hfactor, hsin]
  split_ifs with hw
  · rw [abs_of_neg hw, neg_div, div_self hpos.ne']
    ext <;> simp [ofParts, opposite, vector, Vec3.scale_eq]
  · rw [abs_of_nonneg (not_lt.mp hw), div_self hpos.ne', Vec3.scale_one, ofParts_vector]

theorem halfAngle_opposite {q : SO3 ℝ} (hw : q.w ≠ 0) : q.opposite.halfAngle = -q.halfAngle := by
  have hnorm : q.opposite.vector.norm = q.vector.norm := by
    rw [vector_opposite, Vec3.norm, Vec3.normSq_neg]; rfl
  have hwneg : q.opposite.w = -q.w := rfl
  unfold halfAngle
  rw [hnorm, hwneg]
  rcases lt_or_gt_of_ne hw with hneg | hpos
  · rw [if_neg (by linarith), if_pos hneg, Scalar.atan2_neg (neg_pos.mpr hneg), neg_neg]
  · rw [if_pos (by linarith), if_neg (by linarith), neg_neg, Scalar.atan2_neg hpos]

/-- **The two quaternions of a rotation have one logarithm.** -/
theorem log_opposite {q : SO3 ℝ} (h : Scalar.epsilon < q.vector.normSq) (hw : q.w ≠ 0) :
    log q.opposite = log q := by
  have hsq : q.opposite.vector.normSq = q.vector.normSq := by rw [vector_opposite, Vec3.normSq_neg]
  rw [log_of_lt (hsq ▸ h), log_of_lt h, halfAngle_opposite hw, Vec3.norm, hsq, vector_opposite,
    mul_neg, neg_div, Vec3.neg_scale_neg]
  rfl

end SO3

end Smoothing
