import Mathlib
import Smoothing.Lie.Motion2
import Smoothing.Proofs.Real

/-!
# The groups of the plane

Over the real numbers the rotations and the rigid motions of the plane satisfy the group laws, as
long as the stored numbers have length one. The exponential and the logarithm are inverse to each
other for angles in `(-π, π]` (`SE2.log_exp`, `SE2.exp_log`). This is exact on both branches of the
coefficients `a` and `b`: whatever they are, the logarithm solves with the matrix `[a, -b; b, a]`
the exponential multiplies by, and its determinant `a² + b²` is never zero
(`SE2.coefficients_ne_zero`).
-/

namespace Smoothing

attribute [ext] SO2 SE2 SE2.Tangent

/-! ### Rotations -/

namespace SO2

theorem compose_assoc (r s t : SO2 ℝ) : (r.compose s).compose t = r.compose (s.compose t) := by
  ext <;> simp only [compose] <;> ring

theorem identity_compose (r : SO2 ℝ) : identity.compose r = r := by
  ext <;> simp only [compose, identity] <;> ring

theorem inverse_compose {r : SO2 ℝ} (h : r.normSq = 1) : r.inverse.compose r = identity := by
  unfold normSq at h
  ext
  · simp only [compose, inverse, identity]
    linear_combination h
  · simp only [compose, inverse, identity]
    ring

theorem compose_inverse {r : SO2 ℝ} (h : r.normSq = 1) : r.compose r.inverse = identity := by
  unfold normSq at h
  ext
  · simp only [compose, inverse, identity]
    linear_combination h
  · simp only [compose, inverse, identity]
    ring

theorem inverse_compose_cancel {r : SO2 ℝ} (h : r.normSq = 1) (s : SO2 ℝ) :
    r.inverse.compose (r.compose s) = s := by
  rw [← compose_assoc, inverse_compose h, identity_compose]

theorem compose_inverse_cancel {r : SO2 ℝ} (h : r.normSq = 1) (s : SO2 ℝ) :
    r.compose (r.inverse.compose s) = s := by
  rw [← compose_assoc, compose_inverse h, identity_compose]

theorem normSq_compose (r s : SO2 ℝ) : (r.compose s).normSq = r.normSq * s.normSq := by
  simp only [normSq, compose]
  ring

theorem normSq_inverse (r : SO2 ℝ) : r.inverse.normSq = r.normSq := by
  simp only [normSq, inverse]
  ring

theorem normSq_ofAngle (θ : ℝ) : (ofAngle θ).normSq = 1 := by
  simp only [normSq, ofAngle, Scalar.cos_real, Scalar.sin_real]
  linear_combination Real.cos_sq_add_sin_sq θ

theorem angle_mem (r : SO2 ℝ) : r.angle ∈ Set.Ioc (-Real.pi) Real.pi := Scalar.atan2_mem _ _

theorem angle_ofAngle {θ : ℝ} (h : θ ∈ Set.Ioc (-Real.pi) Real.pi) : (ofAngle θ).angle = θ :=
  Scalar.atan2_sin_cos h

theorem ofAngle_angle {r : SO2 ℝ} (h : r.normSq = 1) : ofAngle r.angle = r := by
  ext
  · exact Scalar.cos_atan2 h
  · exact Scalar.sin_atan2 h

end SO2

/-! ### Rigid motions -/

namespace SE2

theorem compose_assoc (g h k : SE2 ℝ) : (g.compose h).compose k = g.compose (h.compose k) := by
  ext
  · simp only [compose, transform, shift, SO2.rotate, SO2.compose]
    ring
  · simp only [compose, transform, shift, SO2.rotate, SO2.compose]
    ring
  · exact congrArg SO2.re (SO2.compose_assoc _ _ _)
  · exact congrArg SO2.im (SO2.compose_assoc _ _ _)

theorem identity_compose (g : SE2 ℝ) : identity.compose g = g := by
  ext <;> simp only [compose, transform, shift, identity, SO2.identity, SO2.rotate, SO2.compose] <;>
    ring

theorem inverse_compose {g : SE2 ℝ} (h : g.rotation.normSq = 1) :
    g.inverse.compose g = identity := by
  ext
  · simp only [compose, inverse, transform, shift, identity]
    ring
  · simp only [compose, inverse, transform, shift, identity]
    ring
  · exact congrArg SO2.re (SO2.inverse_compose h)
  · exact congrArg SO2.im (SO2.inverse_compose h)

theorem compose_inverse {g : SE2 ℝ} (h : g.rotation.normSq = 1) :
    g.compose g.inverse = identity := by
  have hsq : g.rotation.re * g.rotation.re + g.rotation.im * g.rotation.im = 1 := h
  ext
  · simp only [compose, inverse, transform, shift, identity, SO2.rotate, SO2.inverse]
    linear_combination -g.x * hsq
  · simp only [compose, inverse, transform, shift, identity, SO2.rotate, SO2.inverse]
    linear_combination -g.y * hsq
  · exact congrArg SO2.re (SO2.compose_inverse h)
  · exact congrArg SO2.im (SO2.compose_inverse h)

theorem inverse_compose_cancel {g : SE2 ℝ} (h : g.rotation.normSq = 1) (k : SE2 ℝ) :
    g.inverse.compose (g.compose k) = k := by
  rw [← compose_assoc, inverse_compose h, identity_compose]

theorem compose_inverse_cancel {g : SE2 ℝ} (h : g.rotation.normSq = 1) (k : SE2 ℝ) :
    g.compose (g.inverse.compose k) = k := by
  rw [← compose_assoc, compose_inverse h, identity_compose]

/-- The coefficients are never both zero. On the series `a = 1 - θ² / 6` is positive; on the closed
form `a² + b² = (2 - 2 cos θ) / θ²`, and both coefficients could only vanish together if `sin θ = 0`
and `cos θ = 1`, which within one turn happens at `θ = 0` alone. -/
theorem coefficients_ne_zero {θ : ℝ} (h : θ ∈ Set.Ioc (-Real.pi) Real.pi) :
    (coefficients θ).1 * (coefficients θ).1 + (coefficients θ).2 * (coefficients θ).2 ≠ 0 := by
  intro hzero
  obtain ⟨ha, hb⟩ := (add_eq_zero_iff_of_nonneg (mul_self_nonneg _) (mul_self_nonneg _)).mp hzero
  rw [mul_self_eq_zero] at ha hb
  unfold coefficients isSmall at ha hb
  by_cases hsmall : θ * θ < Scalar.epsilon
  · have he : θ * θ < 1 := hsmall.trans (by rw [Scalar.epsilon_real]; norm_num)
    simp only [hsmall, decide_true, if_true] at ha
    norm_num at ha
    linarith
  · have h0 : θ ≠ 0 := by
      rintro rfl
      exact hsmall (by rw [zero_mul]; exact Scalar.epsilon_pos)
    simp only [hsmall, decide_false, Bool.false_eq_true, if_false, div_eq_zero_iff, h0, or_false,
      Scalar.cos_real] at hb
    have hcos : Real.cos θ = 1 := by linarith
    have hpi := Real.pi_pos
    exact h0 ((Real.cos_eq_one_iff_of_lt_of_lt (by linarith [h.1]) (by linarith [h.2])).mp hcos)

theorem solve_multiply {a b : ℝ} (h : a * a + b * b ≠ 0) (x y : ℝ) :
    1 / (a * a + b * b) * (a * (a * x - b * y) + b * (b * x + a * y)) = x ∧
      1 / (a * a + b * b) * (-b * (a * x - b * y) + a * (b * x + a * y)) = y := by
  constructor
  · rw [one_div_mul_eq_div, div_eq_iff h]
    ring
  · rw [one_div_mul_eq_div, div_eq_iff h]
    ring

theorem multiply_solve {a b : ℝ} (h : a * a + b * b ≠ 0) (x y : ℝ) :
    a * (1 / (a * a + b * b) * (a * x + b * y)) - b * (1 / (a * a + b * b) * (-b * x + a * y)) = x ∧
      b * (1 / (a * a + b * b) * (a * x + b * y)) + a * (1 / (a * a + b * b) * (-b * x + a * y)) =
      y := by
  have hden : 1 / (a * a + b * b) * (a * a + b * b) = 1 := one_div_mul_cancel h
  constructor
  · linear_combination x * hden
  · linear_combination y * hden

/-- **A tangent vector with an angle in `(-π, π]` is the logarithm of its exponential.** -/
theorem log_exp {τ : Tangent ℝ} (h : τ.θ ∈ Set.Ioc (-Real.pi) Real.pi) : log τ.exp = τ := by
  have hangle : τ.exp.angle = τ.θ := SO2.angle_ofAngle h
  obtain ⟨hx, hy⟩ := solve_multiply (coefficients_ne_zero h) τ.x τ.y
  ext
  · simp only [log, hangle]
    exact hx
  · simp only [log, hangle]
    exact hy
  · exact hangle

theorem exp_log {g : SE2 ℝ} (h : g.rotation.normSq = 1) : (log g).exp = g := by
  have hrotation : SO2.ofAngle g.angle = g.rotation := SO2.ofAngle_angle h
  obtain ⟨hx, hy⟩ := multiply_solve (coefficients_ne_zero g.rotation.angle_mem) g.x g.y
  ext
  · exact hx
  · exact hy
  · exact congrArg SO2.re hrotation
  · exact congrArg SO2.im hrotation

end SE2

end Smoothing
