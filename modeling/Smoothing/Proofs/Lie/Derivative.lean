import Mathlib
import Smoothing.Proofs.Lie.Jacobians

/-!
# Derivatives in groups

Elements `g d` of a group that depend on a point `d` move with a velocity, the tangent vector by
which a small change of `d` updates `g d`: its coordinates are linear forms in the change. In a
group whose operations move by the Jacobians that are reported for them (`HasDerivatives`) the chain
rule gives the derivative of the difference between a measurement and what leads from one updated
element to another (**`HasDerivatives.minus_between_plus`**).

The rules hold for vectors, for the rotations of the plane and for the rigid motions of the plane. A
rotation that turns with velocity `w` is a point of the unit circle that moves by `w` times the
perpendicular point, and its angle moves by `w` as long as it is not half a turn. The shift of a
rigid motion moves by the rotated velocity. Near the identity the exponential is a polynomial in the
angle. The logarithm applies `V⁻¹ = [u, v; -v, u]` to the shift; the derivatives of `u` and `v` make
up the last column of the inverse Jacobian. Away from the angle zero `u = (θ / 2) cot (θ / 2)` and
`v = θ / 2` (`SE2.MovesBy.log`); at the angle zero the series have the same derivatives
(`SE2.MovesBy.log_zero`).
-/

open Finset

namespace Smoothing

open LieStructure

variable {E : Type*} [NormedAddCommGroup E] [NormedSpace ℝ E] {p : E}

/-! ### Combinations of linear forms -/

namespace Mat

/-- The linear forms whose coefficients in given forms are the rows of a matrix. -/
noncomputable def combine (m : Mat ℝ) (φ : ℕ → E →L[ℝ] ℝ) (i : ℕ) : E →L[ℝ] ℝ :=
  ∑ j ∈ range m.cols, m.get i j • φ j

theorem combine_mul (a b : Mat ℝ) (φ : ℕ → E →L[ℝ] ℝ) :
    (a * b).combine φ = a.combine (b.combine φ) := by
  funext i
  have hcols : (a * b).cols = b.cols := rfl
  simp only [combine, hcols, get_mul, sum_smul, smul_sum, mul_smul]
  exact sum_comm

theorem combine_add (a : Mat ℝ) (φ ψ : ℕ → E →L[ℝ] ℝ) :
    a.combine (φ + ψ) = a.combine φ + a.combine ψ := by
  funext i
  simp only [combine, Pi.add_apply, smul_add, sum_add_distrib]

theorem combine_neg (a : Mat ℝ) (φ : ℕ → E →L[ℝ] ℝ) : (-a).combine φ = -a.combine φ := by
  funext i
  have hcols : (-a).cols = a.cols := rfl
  ext d
  simp [combine, hcols, get_neg, sum_neg_distrib]

theorem combine_neg_right (a : Mat ℝ) (φ : ℕ → E →L[ℝ] ℝ) : a.combine (-φ) = -a.combine φ := by
  funext i
  simp [combine]

theorem combine_zero (a : Mat ℝ) : a.combine (0 : ℕ → E →L[ℝ] ℝ) = 0 := by
  funext i
  simp [combine]

theorem combine_identity {n : ℕ} (φ : ℕ → E →L[ℝ] ℝ) {i : ℕ} (hi : i < n) :
    (identity n : Mat ℝ).combine φ i = φ i := by
  have hcols : (identity n : Mat ℝ).cols = n := rfl
  rw [combine, hcols, sum_eq_single_of_mem i (mem_range.mpr hi) fun j _ hj => ?_]
  · rw [get_identity hi, if_pos rfl, one_smul]
  · rw [get_identity hi, if_neg (Ne.symm hj), zero_smul]

end Mat

/-! ### Groups with derivatives -/

/-- Vectors with `n` coordinates that are zero at the point `p` and have the derivative `φ`
there. -/
structure Vec.IsUpdate (n : ℕ) (v : E → Vec ℝ) (p : E) (φ : ℕ → E →L[ℝ] ℝ) : Prop where
  size_eq : ∀ d, (v d).size = n
  get_eq_zero : ∀ i < n, (v p).get i = 0
  hasFDerivAt : ∀ i < n, HasFDerivAt (fun d => (v d).get i) (φ i) p

/-- Elements `g d` of a group with `n` tangent coordinates move at the point `p` with a velocity.
The velocity is seen from the element, like an update: its coordinates are linear forms in the
change of `d`. The rules say how the group operations move if their arguments do; the logarithm has
a derivative where it has the property `good`. -/
structure HasDerivatives {G T : Type} [LieStructure ℝ G T] (n : ℕ) (mem : G → Prop) (one : G)
    (good : T → Prop) (p : E) (MovesBy : (E → G) → (ℕ → E →L[ℝ] ℝ) → Prop) :
    Prop extends IsGroupOn mem one where
  adjoint_compose : ∀ {g h : G}, mem g → mem h →
    adjoint (LieStructure.compose g h) = adjoint g * adjoint h
  const : ∀ {g : G}, mem g → MovesBy (fun _ => g) 0
  exp_zero : ∀ {v : Vec ℝ}, v.size = n → (∀ i < n, v.get i = 0) →
    LieStructure.exp (ofCoords G v) = one
  exp : ∀ {v : E → Vec ℝ} {φ}, Vec.IsUpdate n v p φ →
    MovesBy (fun d => LieStructure.exp (ofCoords G (v d))) φ
  inverse : ∀ {g φ}, mem (g p) → MovesBy g φ →
    MovesBy (fun d => LieStructure.inverse (g d)) ((inverseJacobian (g p)).combine φ)
  compose : ∀ {g h φ ψ}, mem (g p) → mem (h p) → MovesBy g φ → MovesBy h ψ →
    MovesBy (fun d => LieStructure.compose (g d) (h d))
    ((composeJacobian (g p) (h p)).combine φ + ψ)
  log : ∀ {g φ}, mem (g p) → good (LieStructure.log (g p)) → MovesBy g φ →
    ∀ i < n, HasFDerivAt (fun d => (coords G (LieStructure.log (g d))).get i)
    ((logJacobian (g p)).combine φ i) p

namespace HasDerivatives

variable {G T : Type} [LieStructure ℝ G T] {n : ℕ} {mem : G → Prop} {good : T → Prop}
  {one x y z : G} {g h : E → G} {φ ψ : ℕ → E →L[ℝ] ℝ} {MovesBy : (E → G) → (ℕ → E →L[ℝ] ℝ) →
    Prop} {v w : E → Vec ℝ} (hD : HasDerivatives n mem one good p MovesBy)
include hD

theorem plus (hx : mem x) (hv : Vec.IsUpdate n v p φ) :
    MovesBy (fun d => LieStructure.plus x (ofCoords G (v d))) φ := by
  have hone := hD.exp_zero (hv.size_eq p) hv.get_eq_zero
  have hplus := hD.compose hx (hone ▸ hD.one_mem) (hD.const hx) (hD.exp hv)
  rwa [Mat.combine_zero, zero_add] at hplus

theorem plus_eq (hx : mem x) (hv : Vec.IsUpdate n v p φ) :
    LieStructure.plus x (ofCoords G (v p)) = x := by
  rw [LieStructure.plus, hD.exp_zero (hv.size_eq p) hv.get_eq_zero, hD.compose_one hx]

/-- What leads from one element to another moves by its Jacobian and with the second: the adjoint
matrix of `(x⁻¹ ∘ y)⁻¹ = y⁻¹ ∘ x` is that of the composition with `y` times that of the inverse of
`x`. -/
theorem between (hgp : mem (g p)) (hhp : mem (h p)) (hg : MovesBy g φ) (hh : MovesBy h ψ) :
    MovesBy (fun d => LieStructure.between (g d) (h d))
    ((betweenJacobian (g p) (h p)).combine φ + ψ) := by
  have hjacobian : (betweenJacobian (g p) (h p)).combine φ =
      (composeJacobian (LieStructure.inverse (g p)) (h p)).combine
      ((inverseJacobian (g p)).combine φ) := by
    unfold betweenJacobian composeJacobian inverseJacobian
    rw [hD.toIsGroupOn.inverse_between hgp hhp, hD.adjoint_compose (hD.inverse_mem hhp) hgp,
      Mat.combine_neg, Mat.combine_neg, Mat.combine_mul, Mat.combine_neg_right]
  rw [hjacobian]
  exact hD.compose (hD.inverse_mem hgp) hhp (hD.inverse hgp hg) hh

theorem minus (hz : mem z) (hgp : mem (g p)) (hgood : good (LieStructure.minus (g p) z))
    (hg : MovesBy g φ) :
    ∀ i < n, HasFDerivAt (fun d => (coords G (LieStructure.minus (g d) z)).get i)
      ((minusJacobian (g p) z).combine φ i) p := by
  have hiz := hD.inverse_mem hz
  have hmove := hD.compose hiz hgp (hD.const hiz) hg
  rw [Mat.combine_zero, zero_add] at hmove
  exact hD.log (hD.compose_mem hiz hgp) hgood hmove

/-- **The chain rule of a relative measurement**: both elements are updated, by `v` and by `w`. -/
theorem minus_between_plus (hx : mem x) (hy : mem y) (hz : mem z)
    (hgood : good (LieStructure.minus (LieStructure.between x y) z)) (hv : Vec.IsUpdate n v p φ)
    (hw : Vec.IsUpdate n w p ψ) : ∀ i < n,
      HasFDerivAt (fun d =>
      (coords G (LieStructure.minus (LieStructure.between (LieStructure.plus x (ofCoords G (v d)))
          (LieStructure.plus y (ofCoords G (w d)))) z)).get i)
        ((minusJacobian (LieStructure.between x y) z * betweenJacobian x y).combine φ i +
          (minusJacobian (LieStructure.between x y) z).combine ψ i) p := by
  have hxp := hD.plus_eq hx hv
  have hyp := hD.plus_eq hy hw
  have hmem := hD.between_mem hx hy
  have hmove := hD.between (hxp.symm ▸ hx) (hyp.symm ▸ hy) (hD.plus hx hv) (hD.plus hy hw)
  intro i hi
  have hderiv :=
    hD.minus hz (g := fun d => LieStructure.between (LieStructure.plus x (ofCoords G (v d)))
    (LieStructure.plus y (ofCoords G (w d)))) (by rw [hxp, hyp]; exact hmem)
      (by rw [hxp, hyp]; exact hgood) hmove i hi
  rwa [hxp, hyp, Mat.combine_add, ← Mat.combine_mul] at hderiv

end HasDerivatives

/-! ### Rotations of the plane -/

namespace SO2

/-- At the point `p` the rotations `r` turn with velocity `w`: they move by `w` times the
perpendicular rotation. -/
structure MovesBy (r : E → SO2 ℝ) (p : E) (w : E →L[ℝ] ℝ) : Prop where
  re : HasFDerivAt (fun d => (r d).re) (-(r p).im • w) p
  im : HasFDerivAt (fun d => (r d).im) ((r p).re • w) p

namespace MovesBy

variable {r s : E → SO2 ℝ} {v w : E →L[ℝ] ℝ}

theorem const (r : SO2 ℝ) : MovesBy (fun _ => r) p 0 := by
  constructor <;> simpa using hasFDerivAt_const _ p

theorem ofAngle {θ : E → ℝ} (h : HasFDerivAt θ w p) : MovesBy (fun d => ofAngle (θ d)) p w :=
  ⟨h.cos, h.sin⟩

theorem inverse (h : MovesBy r p w) : MovesBy (fun d => (r d).inverse) p (-w) := by
  refine ⟨h.re.congr_fderiv ?_, h.im.neg.congr_fderiv ?_⟩ <;>
  · ext d
    simp [SO2.inverse]

theorem compose (hr : MovesBy r p v) (hs : MovesBy s p w) :
    MovesBy (fun d => (r d).compose (s d)) p (v + w) := by
  refine ⟨((hr.re.mul hs.re).sub (hr.im.mul hs.im)).congr_fderiv ?_,
    ((hr.re.mul hs.im).add (hr.im.mul hs.re)).congr_fderiv ?_⟩ <;>
  · ext d
    simp only [add_apply, sub_apply, smul_apply, smul_eq_mul, SO2.compose]
    ring

/-- The angle is the imaginary part of the logarithm, and on the unit circle the derivative of the
logarithm is the velocity. -/
theorem angle (h : MovesBy r p w) (hunit : (r p).normSq = 1) (hpi : (r p).angle ≠ Real.pi) :
    HasFDerivAt (fun d => (r d).angle) w p := by
  have hpoint : HasFDerivAt (fun d => (⟨(r d).re, (r d).im⟩ : ℂ)) _ p :=
    Complex.equivRealProdCLM.symm.toContinuousLinearMap.hasFDerivAt.comp p (h.re.prodMk h.im)
  have hnorm : ‖(⟨(r p).re, (r p).im⟩ : ℂ)‖ = 1 := Scalar.norm_point hunit
  have hslit : (⟨(r p).re, (r p).im⟩ : ℂ) ∈ Complex.slitPlane :=
    Complex.mem_slitPlane_iff_arg.mpr ⟨hpi, norm_pos_iff.mp (hnorm ▸ one_pos)⟩
  have hlog := (Complex.hasStrictFDerivAt_log_real hslit).hasFDerivAt.comp p hpoint
  have hangle : (fun d => (r d).angle) = Complex.imCLM ∘ Complex.log ∘ fun d =>
      ⟨(r d).re, (r d).im⟩ :=
    funext fun d => (Complex.log_im _).symm
  rw [hangle]
  refine (Complex.imCLM.hasFDerivAt.comp p hlog).congr_fderiv ?_
  ext d
  have hsq : (r p).re * (r p).re + (r p).im * (r p).im = 1 := hunit
  simp only [ContinuousLinearMap.comp_apply, ContinuousLinearMap.prod_apply, smul_apply]
  simp [Complex.inv_re, Complex.inv_im, Complex.normSq_mk, hsq]
  linear_combination w d * hsq

end MovesBy

end SO2

/-! ### Rigid motions of the plane -/

namespace SE2

/-- At the point `p` the rigid motions `g` move with the velocity `φ`, seen from the moving
frame. -/
structure MovesBy (g : E → SE2 ℝ) (p : E) (φ : ℕ → E →L[ℝ] ℝ) : Prop where
  rotation : SO2.MovesBy (fun d => (g d).rotation) p (φ 2)
  x : HasFDerivAt (fun d => (g d).x) ((g p).rotation.re • φ 0 - (g p).rotation.im • φ 1) p
  y : HasFDerivAt (fun d => (g d).y) ((g p).rotation.im • φ 0 + (g p).rotation.re • φ 1) p

section Jacobian
variable (a b u c d v : ℝ) (φ : ℕ → E →L[ℝ] ℝ)

theorem combine_jacobian_zero :
    (Tangent.jacobian a b u c d v).combine φ 0 = a • φ 0 + b • φ 1 + u • φ 2 := by
  simp [Mat.combine, Tangent.jacobian, Mat.get, Vec.get, sum_range_succ]

theorem combine_jacobian_one :
    (Tangent.jacobian a b u c d v).combine φ 1 = c • φ 0 + d • φ 1 + v • φ 2 := by
  simp [Mat.combine, Tangent.jacobian, Mat.get, Vec.get, sum_range_succ]

theorem combine_jacobian_two : (Tangent.jacobian a b u c d v).combine φ 2 = φ 2 := by
  simp [Mat.combine, Tangent.jacobian, Mat.get, Vec.get, sum_range_succ]

end Jacobian

namespace MovesBy

variable {g h : E → SE2 ℝ} {φ ψ : ℕ → E →L[ℝ] ℝ}

theorem const (g : SE2 ℝ) : MovesBy (fun _ => g) p 0 := by
  refine ⟨SO2.MovesBy.const g.rotation, ?_, ?_⟩ <;> simpa using hasFDerivAt_const _ p

theorem inverse (hg : MovesBy g p φ) :
    MovesBy (fun d => (g d).inverse) p ((-(g p).adjoint).combine φ) := by
  have hadjoint : (g p).adjoint = Tangent.jacobian (g p).rotation.re (-(g p).rotation.im) (g p).y
    (g p).rotation.im (g p).rotation.re (-(g p).x) := rfl
  rw [Mat.combine_neg, hadjoint]
  refine ⟨?_, ?_, ?_⟩
  · rw [Pi.neg_apply, combine_jacobian_two]
    exact hg.rotation.inverse
  · refine ((hg.rotation.re.mul hg.x).sub (hg.rotation.im.neg.mul hg.y)).neg.congr_fderiv ?_
    ext d
    simp only [Pi.neg_apply, combine_jacobian_zero, combine_jacobian_one, add_apply, sub_apply,
      neg_apply, smul_apply, smul_eq_mul, SE2.inverse, SO2.inverse]
    ring
  · refine ((hg.rotation.im.neg.mul hg.x).add (hg.rotation.re.mul hg.y)).neg.congr_fderiv ?_
    ext d
    simp only [Pi.neg_apply, combine_jacobian_zero, combine_jacobian_one, add_apply, sub_apply,
      neg_apply, smul_apply, smul_eq_mul, SE2.inverse, SO2.inverse]
    ring

theorem compose (hg : MovesBy g p φ) (hh : MovesBy h p ψ) (hunit : (h p).rotation.normSq = 1) :
    MovesBy (fun d => (g d).compose (h d)) p ((h p).inverse.adjoint.combine φ + ψ) := by
  have hsq : (h p).rotation.re * (h p).rotation.re + (h p).rotation.im * (h p).rotation.im = 1 :=
    hunit
  have hadjoint : (h p).inverse.adjoint = Tangent.jacobian (h p).rotation.re (- -(h p).rotation.im)
    (-((-(h p).rotation.im) * (h p).x + (h p).rotation.re * (h p).y)) (-(h p).rotation.im)
    (h p).rotation.re (- -((h p).rotation.re * (h p).x - -(h p).rotation.im * (h p).y)) := rfl
  rw [hadjoint]
  refine ⟨?_, ?_, ?_⟩
  · rw [Pi.add_apply, combine_jacobian_two]
    exact hg.rotation.compose hh.rotation
  · refine (((hg.rotation.re.mul hh.x).sub (hg.rotation.im.mul hh.y)).add hg.x).congr_fderiv ?_
    ext d
    simp only [Pi.add_apply, combine_jacobian_zero, combine_jacobian_one, add_apply,
      sub_apply, smul_apply, smul_eq_mul, SE2.compose, SO2.compose]
    linear_combination -((g p).rotation.re * φ 0 d - (g p).rotation.im * φ 1 d -
      ((g p).rotation.re * (h p).y + (g p).rotation.im * (h p).x) * φ 2 d) * hsq
  · refine (((hg.rotation.im.mul hh.x).add (hg.rotation.re.mul hh.y)).add hg.y).congr_fderiv ?_
    ext d
    simp only [Pi.add_apply, combine_jacobian_zero, combine_jacobian_one, add_apply,
      sub_apply, smul_apply, smul_eq_mul, SE2.compose, SO2.compose]
    linear_combination -((g p).rotation.im * φ 0 d + (g p).rotation.re * φ 1 d +
      ((g p).rotation.re * (h p).x - (g p).rotation.im * (h p).y) * φ 2 d) * hsq

end MovesBy

/-! ### The exponential near the identity -/

theorem coefficients_of_lt {θ : ℝ} (h : θ * θ < Scalar.epsilon) :
    coefficients θ = (1 - θ * θ / 6, 1 / 2 * θ - θ * (θ * θ) / 24) := by
  unfold coefficients isSmall
  refine (if_pos (decide_eq_true h)).trans ?_
  norm_num only

/-- The exponential is that of its series, whose coefficients have the derivatives `0` and
`1 / 2`. -/
theorem hasDerivAt_coefficients_zero :
    HasDerivAt (fun θ : ℝ => (coefficients θ).1) 0 0 ∧
    HasDerivAt (fun θ : ℝ => (coefficients θ).2) (1 / 2) 0 := by
  have hsmall : ∀ᶠ θ : ℝ in nhds 0, θ * θ < Scalar.epsilon :=
    (continuous_id.mul continuous_id).continuousAt.eventually_lt continuousAt_const
      (by simpa using Scalar.epsilon_pos)
  have hid := hasDerivAt_id (0 : ℝ)
  constructor
  · refine HasDerivAt.congr_of_eventuallyEq ?_
      (hsmall.mono fun θ h => congrArg Prod.fst (coefficients_of_lt h))
    exact (((hid.mul hid).div_const 6).const_sub 1).congr_deriv (by simp)
  · refine HasDerivAt.congr_of_eventuallyEq ?_
      (hsmall.mono fun θ h => congrArg Prod.snd (coefficients_of_lt h))
    exact ((hid.const_mul (1 / 2)).sub ((hid.mul (hid.mul hid)).div_const 24)).congr_deriv (by simp)

theorem coefficients_zero : coefficients (0 : ℝ) = (1, 0) := by
  rw [coefficients_of_lt (by simpa using Scalar.epsilon_pos)]
  norm_num

theorem MovesBy.exp {τ : E → Tangent ℝ} {φ : ℕ → E →L[ℝ] ℝ}
    (hx : HasFDerivAt (fun d => (τ d).x) (φ 0) p) (hy : HasFDerivAt (fun d => (τ d).y) (φ 1) p)
    (hθ : HasFDerivAt (fun d => (τ d).θ) (φ 2) p) (h0 : τ p = ⟨0, 0, 0⟩) :
    MovesBy (fun d => (τ d).exp) p φ := by
  have hzero : (τ p).θ = 0 := by rw [h0]
  obtain ⟨hfst, hsnd⟩ := hasDerivAt_coefficients_zero
  rw [← hzero] at hfst hsnd
  have ha := hfst.comp_hasFDerivAt p hθ
  have hb := hsnd.comp_hasFDerivAt p hθ
  refine ⟨SO2.MovesBy.ofAngle hθ, ?_, ?_⟩
  · refine ((ha.mul hx).sub (hb.mul hy)).congr_fderiv ?_
    ext d
    simp [h0, coefficients_zero, Tangent.exp, SO2.ofAngle]
  · refine ((hb.mul hx).add (ha.mul hy)).congr_fderiv ?_
    ext d
    simp [h0, coefficients_zero, Tangent.exp, SO2.ofAngle]

/-! ### The logarithm -/

/-- The entries of `V⁻¹ = [u, v; -v, u]`, which the logarithm applies to the shift. -/
noncomputable def inverseCoefficients (θ : ℝ) : ℝ × ℝ :=
  ((coefficients θ).1 /
    ((coefficients θ).1 * (coefficients θ).1 + (coefficients θ).2 * (coefficients θ).2),
    (coefficients θ).2 /
    ((coefficients θ).1 * (coefficients θ).1 + (coefficients θ).2 * (coefficients θ).2))

theorem log_eq (g : SE2 ℝ) :
    g.log = ⟨(inverseCoefficients g.angle).1 * g.x + (inverseCoefficients g.angle).2 * g.y,
      (inverseCoefficients g.angle).1 * g.y - (inverseCoefficients g.angle).2 * g.x, g.angle⟩ := by
  unfold log inverseCoefficients
  ext
  · dsimp only
    ring
  · dsimp only
    ring
  · rfl

theorem MovesBy.hasFDerivAt_log {g : E → SE2 ℝ} {φ : ℕ → E →L[ℝ] ℝ} (hg : MovesBy g p φ)
    (hangle : HasFDerivAt (fun d => (g d).angle) (φ 2) p) {u v u' v' : ℝ}
    (hcoefficients : inverseCoefficients (g p).angle = (u, v))
    (hu : HasDerivAt (fun θ => (inverseCoefficients θ).1) u' (g p).angle)
    (hv : HasDerivAt (fun θ => (inverseCoefficients θ).2) v' (g p).angle) : ∀ i < 3,
      HasFDerivAt (fun d => (g d).log.coords.get i)
        ((Tangent.jacobian (u * (g p).rotation.re + v * (g p).rotation.im)
          (v * (g p).rotation.re - u * (g p).rotation.im) (u' * (g p).x + v' * (g p).y)
          (u * (g p).rotation.im - v * (g p).rotation.re)
            (u * (g p).rotation.re + v * (g p).rotation.im)
          (u' * (g p).y - v' * (g p).x)).combine φ i) p := by
  have hfst := hu.comp_hasFDerivAt p hangle
  have hsnd := hv.comp_hasFDerivAt p hangle
  intro i hi
  interval_cases i
  · refine (((hfst.mul hg.x).add (hsnd.mul hg.y)).congr_fderiv ?_).congr_of_eventuallyEq
      (.of_forall fun d => congrArg Tangent.x (log_eq (g d)))
    rw [combine_jacobian_zero]
    ext d
    simp only [Function.comp_apply, hcoefficients, add_apply, sub_apply, smul_apply, smul_eq_mul]
    ring
  · refine (((hfst.mul hg.y).sub (hsnd.mul hg.x)).congr_fderiv ?_).congr_of_eventuallyEq
      (.of_forall fun d => congrArg Tangent.y (log_eq (g d)))
    rw [combine_jacobian_one]
    ext d
    simp only [Function.comp_apply, hcoefficients, add_apply, sub_apply, smul_apply, smul_eq_mul]
    ring
  · rw [combine_jacobian_two]
    exact hangle

/-! At the angle zero the series decides. -/

theorem inverseCoefficients_zero :
    inverseCoefficients 0 = (1, 0) :=
  by simp [inverseCoefficients, coefficients_zero]

theorem hasDerivAt_inverseCoefficients_zero : HasDerivAt (fun θ => (inverseCoefficients θ).1) 0 0 ∧
    HasDerivAt (fun θ => (inverseCoefficients θ).2) (1 / 2) 0 := by
  obtain ⟨ha, hb⟩ := hasDerivAt_coefficients_zero
  have hden := (ha.mul ha).add (hb.mul hb)
  constructor
  · exact (ha.div hden (by simp [coefficients_zero])).congr_deriv (by simp [coefficients_zero])
  · exact (hb.div hden (by simp [coefficients_zero])).congr_deriv (by simp [coefficients_zero])

theorem MovesBy.log_zero {g : E → SE2 ℝ} {φ : ℕ → E →L[ℝ] ℝ} (hg : MovesBy g p φ)
    (hunit : (g p).rotation.normSq = 1) (h0 : (g p).angle = 0) : ∀ i < 3,
      HasFDerivAt (fun d => (g d).log.coords.get i) ((g p).log.rightJacobianInv.combine φ i) p := by
  have hangle := hg.rotation.angle hunit (ne_of_eq_of_ne h0 Real.pi_pos.ne)
  have hre : (g p).rotation.re = 1 := by
    rw [← Real.cos_zero, ← h0]; exact (Scalar.cos_atan2 hunit).symm
  have him : (g p).rotation.im = 0 := by
    rw [← Real.sin_zero, ← h0]; exact (Scalar.sin_atan2 hunit).symm
  have hvalue : inverseCoefficients (g p).angle = (1, 0) := by rw [h0, inverseCoefficients_zero]
  obtain ⟨hu, hv⟩ := hasDerivAt_inverseCoefficients_zero
  have hderiv := hg.hasFDerivAt_log hangle hvalue (by rw [h0]; exact hu) (by rw [h0]; exact hv)
  rw [hre, him] at hderiv
  rw [log_eq, hvalue, h0, Tangent.rightJacobianInv_of_le (by simpa using Scalar.epsilon_pos.le)]
  convert hderiv using 4
  rw [Tangent.jacobian_inj]
  refine ⟨⟨?_, ?_, ?_⟩, ?_, ?_, ?_⟩ <;> ring

/-! Away from the angle zero the closed form does. -/

/-- The coefficient `(θ / 2) cot (θ / 2)`. -/
noncomputable def cotangent (θ : ℝ) : ℝ := θ * Real.sin θ / (Scalar.two * (1 - Real.cos θ))

theorem cotangent_eq : cotangent = fun θ => θ * Real.sin θ / (2 * (1 - Real.cos θ)) := by
  funext θ
  rw [cotangent, Scalar.two_real]

theorem inverseCoefficients_of_le {θ : ℝ} (h : Scalar.epsilon ≤ θ * θ) (hcos : Real.cos θ ≠ 1) :
    inverseCoefficients θ = (cotangent θ, 1 / 2 * θ) := by
  have h0 := ne_zero_of_le h
  have hden := (Tangent.versine_ne_zero hcos).1
  have hcircle := Real.sin_sq_add_cos_sq θ
  have hsq : Real.sin θ / θ * (Real.sin θ / θ) + (1 - Real.cos θ) / θ * ((1 - Real.cos θ) / θ) =
      2 * (1 - Real.cos θ) / (θ * θ) := by
    field_simp
    linear_combination hcircle
  unfold inverseCoefficients
  rw [coefficients_of_le h, hsq, cotangent_eq]
  congr 1 <;> field_simp

theorem hasDerivAt_cotangent {θ : ℝ} (hcos : Real.cos θ ≠ 1) :
    HasDerivAt cotangent ((Real.sin θ - θ) / (2 * (1 - Real.cos θ))) θ := by
  have hden := (Tangent.versine_ne_zero hcos).1
  have hcircle := Real.sin_sq_add_cos_sq θ
  have hnum := (hasDerivAt_id θ).mul (Real.hasDerivAt_sin θ)
  have hversine := ((Real.hasDerivAt_cos θ).const_sub 1).const_mul 2
  rw [cotangent_eq]
  refine (hnum.div hversine (mul_ne_zero two_ne_zero hden)).congr_deriv ?_
  simp only [id, Pi.mul_apply]
  field_simp
  linear_combination -θ * hcircle

/-- **The logarithm moves by the inverse of the right Jacobian.** -/
theorem MovesBy.log {g : E → SE2 ℝ} {φ : ℕ → E →L[ℝ] ℝ} (hg : MovesBy g p φ)
    (hunit : (g p).rotation.normSq = 1) (hpi : (g p).angle ≠ Real.pi)
    (h : Scalar.epsilon < (g p).angle * (g p).angle) (hcos : Real.cos (g p).angle ≠ 1) : ∀ i < 3,
      HasFDerivAt (fun d => (g d).log.coords.get i) ((g p).log.rightJacobianInv.combine φ i) p := by
  have hangle := hg.rotation.angle hunit hpi
  have hre : (g p).rotation.re = Real.cos (g p).angle := (Scalar.cos_atan2 hunit).symm
  have him : (g p).rotation.im = Real.sin (g p).angle := (Scalar.sin_atan2 hunit).symm
  -- The closed forms hold in a neighbourhood of the angle.
  have hregion : ∀ᶠ θ in nhds (g p).angle, Scalar.epsilon < θ * θ ∧ Real.cos θ ≠ 1 :=
    (continuousAt_const.eventually_lt (continuousAt_id.mul continuousAt_id) h).and
      (Real.continuous_cos.continuousAt.eventually_ne hcos)
  have hclosed := hregion.mono fun θ hθ => inverseCoefficients_of_le hθ.1.le hθ.2
  have hu :=
    (hasDerivAt_cotangent hcos).congr_of_eventuallyEq
      (hclosed.mono fun θ hθ => congrArg Prod.fst hθ)
  have hv :=
    ((hasDerivAt_id _).const_mul (1 / 2)).congr_of_eventuallyEq
      (hclosed.mono fun θ hθ => congrArg Prod.snd hθ)
  have hderiv := hg.hasFDerivAt_log hangle (inverseCoefficients_of_le h.le hcos) hu hv
  have h0 := ne_zero_of_le h.le
  have hden := (Tangent.versine_ne_zero hcos).1
  have hcircle := Real.sin_sq_add_cos_sq (g p).angle
  rw [log_eq, inverseCoefficients_of_le h.le hcos, Tangent.rightJacobianInv_of_lt h hcos,
    cotangent_eq]
  rw [hre, him, cotangent_eq] at hderiv
  convert hderiv using 4
  rw [Tangent.jacobian_inj]
  refine ⟨⟨?_, ?_, ?_⟩, ?_, ?_, ?_⟩
  · field_simp
    ring
  · field_simp
    linear_combination hcircle
  · field_simp
    linear_combination -(g p).angle * (g p).x * hcircle
  · field_simp
    linear_combination -hcircle
  · field_simp
    ring
  · field_simp
    linear_combination -(g p).angle * (g p).y * hcircle

end SE2

/-! ### The rules hold -/

theorem SO2.hasDerivatives (p : E) : HasDerivatives 1 (fun r : SO2 ℝ => r.normSq = 1) SO2.identity
    (· ∈ Set.Ioo (-Real.pi) Real.pi) p fun r φ => MovesBy r p (φ 0) where
  toIsGroupOn := isActingOn.toIsGroupOn
  adjoint_compose := hasAdjoint.adjoint_compose
  const _ := MovesBy.const _
  exp_zero {v} _ h0 := by
    change ofAngle (v.get 0) = identity
    rw [h0 0 one_pos]
    simp [ofAngle, identity]
  exp hv := MovesBy.ofAngle (hv.hasFDerivAt 0 one_pos)
  inverse {g φ} _ hg := by
    have hjacobian : inverseJacobian (g p) = -Mat.identity 1 := rfl
    rw [hjacobian, Mat.combine_neg, Pi.neg_apply, Mat.combine_identity φ one_pos]
    exact hg.inverse
  compose {g h φ ψ} _ _ hg hh := by
    have hjacobian : composeJacobian (g p) (h p) = Mat.identity 1 := rfl
    rw [hjacobian, Pi.add_apply, Mat.combine_identity φ one_pos]
    exact hg.compose hh
  log {g φ} hunit hgood hg := by
    have hjacobian : logJacobian (g p) = Mat.identity 1 := rfl
    intro i hi
    rw [Nat.lt_one_iff.mp hi, hjacobian, Mat.combine_identity φ one_pos]
    exact hg.angle hunit hgood.2.ne

theorem SE2.cos_ne_one {θ : ℝ} (h : θ ∈ Set.Ioo (-Real.pi) Real.pi) (h0 : θ ≠ 0) :
    Real.cos θ ≠ 1 := by
  have hpi := Real.pi_pos
  intro hcos
  exact h0 ((Real.cos_eq_one_iff_of_lt_of_lt (by linarith [h.1]) (by linarith [h.2])).mp hcos)

theorem SE2.hasDerivatives (p : E) :
    HasDerivatives 3 (fun g : SE2 ℝ => g.rotation.normSq = 1) SE2.identity
    (fun τ => τ.θ ∈ Set.Ioo (-Real.pi) Real.pi ∧ (τ.θ = 0 ∨ Scalar.epsilon < τ.θ * τ.θ)) p
    fun g φ => MovesBy g p φ where
  toIsGroupOn := isActingOn.toIsGroupOn
  adjoint_compose := hasAdjoint.adjoint_compose
  const _ := MovesBy.const _
  exp_zero {v} _ h0 := by
    change Tangent.exp ⟨v.get 0, v.get 1, v.get 2⟩ = identity
    rw [h0 0 (by norm_num), h0 1 (by norm_num), h0 2 (by norm_num)]
    simp [Tangent.exp, identity, SO2.ofAngle, SO2.identity]
  exp {v φ} hv := by
    refine MovesBy.exp (τ := fun d => ⟨(v d).get 0, (v d).get 1, (v d).get 2⟩)
      (hv.hasFDerivAt 0 (by norm_num))
      (hv.hasFDerivAt 1 (by norm_num)) (hv.hasFDerivAt 2 (by norm_num)) ?_
    rw [hv.get_eq_zero 0 (by norm_num), hv.get_eq_zero 1 (by norm_num),
      hv.get_eq_zero 2 (by norm_num)]
  inverse _ hg := hg.inverse
  compose _ hunit hg hh := hg.compose hh hunit
  log {g φ} hunit hgood hg := by
    rcases hgood with ⟨hangle, hzero | hlarge⟩
    · exact hg.log_zero hunit hzero
    · exact hg.log hunit hangle.2.ne hlarge (cos_ne_one hangle (ne_zero_of_le hlarge.le))

theorem Vec.isGroupOn (n : ℕ) : IsGroupOn (fun x : Vec ℝ => x.size = n) (Vec.zero n) := by
  have hadd : ∀ {x y : Vec ℝ}, x.size = n → y.size = n → (x + y).size = n := fun hx hy => by
    rw [size_add, hx, hy, min_self]
  have hneg : ∀ {x : Vec ℝ}, x.size = n → (-x).size = n := fun hx => (size_neg _).trans hx
  refine ⟨size_zero n, hadd, hneg, fun {x y z} hx hy hz => ?_, fun {x} hx => ?_, fun {x} hx => ?_,
    fun {x} hx => ?_, fun {x} hx => ?_⟩
  · change x + y + z = x + (y + z)
    refine ext_get ((hadd (hadd hx hy) hz).trans (hadd hx (hadd hy hz)).symm) fun i _ => ?_
    rw [get_add ((hadd hx hy).trans hz.symm), get_add (hx.trans hy.symm),
      get_add (hx.trans (hadd hy hz).symm), get_add (hy.trans hz.symm), add_assoc]
  · change zero n + x = x
    refine ext_get ((hadd (size_zero n) hx).trans hx.symm) fun i _ => ?_
    rw [get_add ((size_zero n).trans hx.symm), get_zero, zero_add]
  · exact hx ▸ add_zero_of_size x
  · change -x + x = zero n
    refine ext_get ((hadd (hneg hx) hx).trans (size_zero n).symm) fun i _ => ?_
    rw [get_add (size_neg x), get_neg, get_zero, neg_add_cancel]
  · change x + -x = zero n
    refine ext_get ((hadd hx (hneg hx)).trans (size_zero n).symm) fun i _ => ?_
    rw [get_add (size_neg x).symm, get_neg, get_zero, add_neg_cancel]

theorem Vec.hasDerivatives (n : ℕ) (p : E) :
    HasDerivatives n (fun x : Vec ℝ => x.size = n) (Vec.zero n) (fun _ => True)
    p fun g φ => (∀ d, (g d).size = n) ∧ ∀ i < n, HasFDerivAt (fun d => (g d).get i) (φ i) p where
  toIsGroupOn := isGroupOn n
  adjoint_compose {x y} hx hy := by
    change Mat.identity (x + y).size = Mat.identity x.size * Mat.identity y.size
    rw [size_add, hx, hy, min_self, Mat.identity_mul (Mat.height_identity n)]
  const {x} hx := ⟨fun _ => hx, fun i _ => hasFDerivAt_const _ p⟩
  exp_zero {v} hv h0 :=
    ext_get (hv.trans (size_zero n).symm) fun i hi => (h0 i (hv ▸ hi)).trans (get_zero n i).symm
  exp hv := ⟨hv.size_eq, hv.hasFDerivAt⟩
  inverse {x φ} hx hmove := by
    refine ⟨fun d => (size_neg _).trans (hmove.1 d), fun i hi => ?_⟩
    have hjacobian : inverseJacobian (x p) = -Mat.identity n :=
      congrArg (fun m => -Mat.identity m) hx
    rw [hjacobian, Mat.combine_neg, Pi.neg_apply, Mat.combine_identity φ hi]
    refine (hmove.2 i hi).neg.congr_of_eventuallyEq (.of_forall fun d => ?_)
    exact get_neg (x d) i
  compose {x y φ ψ} hx hy hmove hmove' := by
    refine ⟨fun d => ?_, fun i hi => ?_⟩
    · exact (size_add _ _).trans (by rw [hmove.1, hmove'.1, min_self])
    · have hjacobian : composeJacobian (x p) (y p) = Mat.identity n :=
        congrArg Mat.identity ((size_neg (y p)).trans hy)
      rw [hjacobian, Pi.add_apply, Mat.combine_identity φ hi]
      refine ((hmove.2 i hi).add (hmove'.2 i hi)).congr_of_eventuallyEq (.of_forall fun d => ?_)
      exact get_add ((hmove.1 d).trans (hmove'.1 d).symm) i
  log {x φ} hx _ hmove i hi := by
    have hjacobian : logJacobian (x p) = Mat.identity n := congrArg Mat.identity hx
    rw [hjacobian, Mat.combine_identity φ hi]
    exact hmove.2 i hi

end Smoothing
