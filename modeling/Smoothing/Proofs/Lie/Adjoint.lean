import Mathlib
import Smoothing.Proofs.Lie.Space

/-!
# Moving updates past elements

An update `x ∘ exp τ` from the right is an update `exp (Ad x · τ) ∘ x` from the left, where `Ad x`
is the adjoint matrix, and `Ad` takes compositions to products (`HasAdjoint`). From these two laws
alone follows, in every group, that the Jacobians of the inverse, of compositions and of what leads
from one element to another are exact: an update of an argument by `τ` is an update of the result by
the Jacobian times `τ`, for updates of any size and not to first order only
(`HasAdjoint.exactJacobians`).

The laws hold in the four groups of motions (**`jacobians_exact`**), on the series and on the closed
form of the exponential for rotations and on the closed form for rigid motions. For rotations of
space the first law says that a rotation commutes with the vector product. For rigid motions it also
says how the Jacobian `J` of the exponential and the rotation `R` fit together:
`J (t × θ) = t - R t`, which is Rodrigues' formula (`SO3.rotate_exp`) written with the coefficients
of `J`, and `R J(-θ) = J(θ)`, which gives the exponential of the opposite vector.
-/

namespace Smoothing

open LieStructure

/-! ### Groups with an adjoint -/

section Laws

/-- A matrix applied to the coordinates of a tangent vector. -/
def LieStructure.applied {α : Type} [Scalar α] (G : Type) {T : Type} [LieStructure α G T]
    (m : Mat α) (τ : T) : T :=
  ofCoords G (m.mulVec (coords G τ))

/-- The tangent vector with the opposite coordinates. -/
def LieStructure.reversed {α : Type} [Scalar α] (G : Type) {T : Type} [LieStructure α G T] (τ : T) :
    T :=
  ofCoords G (-coords G τ)

variable {G T P : Type} [LieStructure ℝ G T]

/-- The tangent vectors of a group are the vectors with `n` coordinates. -/
structure HasCoordinates (G : Type) {T : Type} [LieStructure ℝ G T] (n : ℕ) : Prop where
  size_coords : ∀ τ : T, (coords G τ).size = n
  ofCoords_coords : ∀ τ : T, ofCoords G (coords G τ) = τ
  coords_ofCoords : ∀ {v : Vec ℝ}, v.size = n → coords G (ofCoords G v) = v
  dim_eq : ∀ g : G, dim g = n
  height_adjoint : ∀ g : G, (adjoint g).height = n

namespace HasCoordinates

variable {n : ℕ} (hC : HasCoordinates G n)
include hC

theorem applied_identity (τ : T) : applied G (Mat.identity n) τ = τ := by
  rw [applied, Mat.mulVec_identity (hC.size_coords τ), hC.ofCoords_coords]

theorem applied_mul (a : Mat ℝ) {b : Mat ℝ} (hb : b.height = n) (τ : T) :
    applied G (a * b) τ = applied G a (applied G b τ) := by
  unfold applied
  rw [Mat.mulVec_mul, hC.coords_ofCoords (by rw [Mat.size_mulVec, hb])]

theorem applied_reversed (m : Mat ℝ) (τ : T) : applied G m (reversed G τ) = applied G (-m) τ := by
  unfold applied reversed
  rw [hC.coords_ofCoords ((Vec.size_neg _).trans (hC.size_coords τ)), Mat.mulVec_neg]

end HasCoordinates

/-- The adjoint matrices of the elements with the property `mem` move the tangent vectors with the
property `dom` past them, take compositions to products, and inverse elements to inverse
matrices. -/
structure HasAdjoint (mem : G → Prop) (dom : T → Prop) : Prop where
  compose_exp : ∀ {g : G} {τ : T}, mem g → dom τ →
    compose g (exp τ) = compose (exp (applied G (adjoint g) τ)) g
  adjoint_compose : ∀ {g h : G}, mem g → mem h → adjoint (compose g h) = adjoint g * adjoint h
  adjoint_mul_inverse : ∀ {g : G}, mem g → adjoint g * adjoint (inverse g) = Mat.identity (dim g)
  adjoint_inverse_mul : ∀ {g : G}, mem g → adjoint (inverse g) * adjoint g = Mat.identity (dim g)

/-- The Jacobians of the group operations are exact: an update of an argument is an update of the
result by the Jacobian times the tangent vector. -/
structure HasExactJacobians (mem : G → Prop) (dom : T → Prop) :
    Prop extends HasAdjoint mem dom where
  inverse_plus : ∀ {g : G} {τ : T}, mem g → dom τ →
    inverse (plus g τ) = plus (inverse g) (applied G (inverseJacobian g) τ)
  compose_plus : ∀ {g h : G} {τ : T}, mem g → mem h → dom τ →
    compose (plus g τ) h = plus (compose g h) (applied G (composeJacobian g h) τ)
  compose_plus_right : ∀ {g h : G} {τ : T}, mem g → mem h → dom τ →
    compose g (plus h τ) = plus (compose g h) (applied G (jacobianIdentity h) τ)
  between_plus : ∀ {g h : G} {τ : T}, mem g → mem h → dom τ →
    between (plus g τ) h = plus (between g h) (applied G (betweenJacobian g h) τ)
  between_plus_right : ∀ {g h : G} {τ : T}, mem g → mem h → dom τ →
    between g (plus h τ) = plus (between g h) (applied G (jacobianIdentity h) τ)

/-- The tangent vectors with the property `dom` can be moved past elements and reversed, and
reversing a tangent vector undoes its exponential. -/
structure IsReversible (mem : G → Prop) (dom : T → Prop) : Prop where
  adjoint_mem : ∀ {g : G} {τ : T}, mem g → dom τ → dom (applied G (adjoint g) τ)
  neg_mem : ∀ {τ : T}, dom τ → dom (reversed G τ)
  exp_neg : ∀ {τ : T}, dom τ → (exp (reversed G τ) : G) = inverse (exp τ)

variable {mem : G → Prop} {dom : T → Prop} {one g h : G} {act : G → P → P} {n : ℕ} {τ : T}

theorem IsGroupOn.inverse_compose_distrib (hG : IsGroupOn mem one) (hg : mem g) (hh : mem h) :
    inverse (compose g h) = compose (inverse h) (inverse g) := by
  have hgh := hG.compose_mem hg hh
  have hig := hG.inverse_mem hg
  have hih := hG.inverse_mem hh
  have hright : compose (compose g h) (compose (inverse h) (inverse g)) = one := by
    rw [hG.compose_assoc hg hh (hG.compose_mem hih hig), hG.compose_inverse_cancel hh hig,
      hG.compose_inverse hg]
  rw [← hG.compose_one (hG.inverse_mem hgh), ← hright,
    hG.inverse_compose_cancel hgh (hG.compose_mem hih hig)]

theorem IsGroupOn.inverse_inverse (hG : IsGroupOn mem one) (hg : mem g) :
    inverse (inverse g) = g := by
  have hig := hG.inverse_mem hg
  rw [← hG.compose_one (hG.inverse_mem hig), ← hG.inverse_compose hg,
    hG.inverse_compose_cancel hig hg]

theorem IsGroupOn.inverse_between (hG : IsGroupOn mem one) (hg : mem g) (hh : mem h) :
    inverse (between g h) = compose (inverse h) g := by
  unfold between
  rw [hG.inverse_compose_distrib (hG.inverse_mem hg) hh, hG.inverse_inverse hg]

theorem IsGroupOn.between_mem (hG : IsGroupOn mem one) (hg : mem g) (hh : mem h) :
    mem (between g h) :=
  hG.compose_mem (hG.inverse_mem hg) hh

theorem IsGroupOn.between_one (hG : IsGroupOn mem one) (hg : mem g) : between one g = g := by
  have hone : inverse one = one := by
    rw [← hG.compose_one (hG.inverse_mem hG.one_mem), hG.inverse_compose hG.one_mem]
  rw [between, hone, hG.one_compose hg]

theorem HasAdjoint.of_compose (hC : HasCoordinates G n) (hG : IsGroupOn mem one)
    (hmove : ∀ {g : G} {τ : T}, mem g → dom τ →
      compose g (exp τ) = compose (exp (applied G (adjoint g) τ)) g)
    (hone : adjoint one = Mat.identity n)
    (hcompose : ∀ {g h : G}, mem g → mem h → adjoint (compose g h) = adjoint g * adjoint h) :
    HasAdjoint mem dom where
  compose_exp := hmove
  adjoint_compose := hcompose
  adjoint_mul_inverse hg := by
    rw [← hcompose hg (hG.inverse_mem hg), hG.compose_inverse hg, hone, hC.dim_eq]
  adjoint_inverse_mul hg := by
    rw [← hcompose (hG.inverse_mem hg) hg, hG.inverse_compose hg, hone, hC.dim_eq]

namespace HasAdjoint

variable (hA : HasAdjoint mem dom) (hG : IsActingOn mem one act) (hC : HasCoordinates G n)
  (hR : IsReversible mem dom)
include hA hG hC hR

theorem exp_compose (hg : mem g) (hτ : dom τ) :
    compose (exp τ) g = compose g (exp (applied G (adjoint (inverse g)) τ)) := by
  rw [hA.compose_exp hg (hR.adjoint_mem (hG.inverse_mem hg) hτ),
    ← hC.applied_mul _ (hC.height_adjoint _), hA.adjoint_mul_inverse hg, hC.dim_eq,
    hC.applied_identity]

/-- **The laws of the adjoint make the Jacobians exact.** The inverse of `g ∘ exp τ` is
`exp (-τ) ∘ g⁻¹`, and `exp (-τ)` moves past `g⁻¹` to the right with the matrix `Ad g`; in a
composition `exp τ` moves past the element on its right. -/
theorem exactJacobians : HasExactJacobians mem dom where
  toHasAdjoint := hA
  inverse_plus {g τ} hg hτ := by
    have hmove := hA.compose_exp (hG.inverse_mem hg) (hR.adjoint_mem hg (hR.neg_mem hτ))
    rw [← hC.applied_mul _ (hC.height_adjoint _), hA.adjoint_inverse_mul hg, hC.dim_eq,
      hC.applied_identity, hC.applied_reversed, hR.exp_neg hτ] at hmove
    unfold plus
    rw [hG.inverse_compose_distrib hg (hG.exp_mem τ), ← hmove]
    rfl
  compose_plus {g h τ} hg hh hτ := by
    unfold plus
    rw [hG.compose_assoc hg (hG.exp_mem τ) hh, exp_compose hA hG hC hR hh hτ,
      hG.compose_assoc hg hh (hG.exp_mem _)]
    rfl
  compose_plus_right {g h τ} hg hh _ := by
    unfold plus jacobianIdentity
    rw [hC.dim_eq, hC.applied_identity, hG.compose_assoc hg hh (hG.exp_mem τ)]
  between_plus {g h τ} hg hh hτ := by
    have hmove := exp_compose hA hG hC hR (hG.between_mem hg hh) (hR.neg_mem hτ)
    rw [hR.exp_neg hτ, hC.applied_reversed] at hmove
    unfold between plus at *
    rw [hG.inverse_compose_distrib hg (hG.exp_mem τ),
      hG.compose_assoc (hG.inverse_mem (hG.exp_mem τ)) (hG.inverse_mem hg) hh, hmove]
    rfl
  between_plus_right {g h τ} hg hh _ := by
    unfold between plus jacobianIdentity
    rw [hC.dim_eq, hC.applied_identity, hG.compose_assoc (hG.inverse_mem hg) hh (hG.exp_mem τ)]

end HasAdjoint

end Laws

namespace SO3

/-! ### Rodrigues' formula -/

/-- The coefficient `sin t / t`, for `t = |θ|`. -/
noncomputable def c₁ (θ : Vec3 ℝ) : ℝ := Real.sin θ.norm / θ.norm

/-- The coefficient `(1 - cos t) / t²`. -/
noncomputable def c₂ (θ : Vec3 ℝ) : ℝ := (1 - Real.cos θ.norm) / θ.normSq

/-- The coefficient `(t - sin t) / t³`. -/
noncomputable def c₃ (θ : Vec3 ℝ) : ℝ := (θ.norm - Real.sin θ.norm) / (θ.normSq * θ.norm)

section Large
variable {θ : Vec3 ℝ} (h : Scalar.epsilon < θ.normSq)
include h

theorem c₁_add : c₁ θ + θ.normSq * c₃ θ = 1 := by
  have ht := (Vec3.norm_pos h).ne'
  rw [c₁, c₃, ← θ.norm_mul_norm]
  field_simp
  ring

theorem c₁_sq_add : c₁ θ ^ 2 + θ.normSq * c₂ θ ^ 2 = 2 * c₂ θ := by
  have ht := (Vec3.norm_pos h).ne'
  rw [c₁, c₂, ← θ.norm_mul_norm]
  field_simp
  linear_combination Real.sin_sq_add_cos_sq θ.norm

/-- **Rodrigues' formula.** The exponential rotates by a series in the vector product with the
rotation vector. -/
theorem rotate_exp (v : Vec3 ℝ) : (exp θ).rotate v = series θ (c₁ θ) (c₂ θ) v := by
  have ht := (Vec3.norm_pos h).ne'
  have hparts : ∀ w k : ℝ, (ofParts w (θ.scale k)).rotate v =
      series θ (2 * w * k) (2 * k * k) v := fun w k => by
    ext <;>
    · simp only [rotate, ofParts, vector, series, Vec3.cross, Vec3.scale_eq, Vec3.add_eq,
        Scalar.two_real]
      ring
  rw [exp_of_lt h, hparts, c₁, c₂, ← θ.norm_mul_norm]
  have hangle : θ.norm = 2 * (θ.norm / 2) := by ring
  have hsin : Real.sin θ.norm = 2 * Real.sin (θ.norm / 2) * Real.cos (θ.norm / 2) := by
    conv_lhs => rw [hangle]
    exact Real.sin_two_mul _
  have hcos : Real.cos θ.norm = 1 - 2 * Real.sin (θ.norm / 2) ^ 2 := by
    conv_lhs => rw [hangle]
    rw [Real.cos_two_mul, Real.cos_sq']
    ring
  congr 1
  · rw [hsin]
    ring
  · rw [hcos]
    field_simp
    ring

theorem mulVec_leftJacobian_eq (v : Vec3 ℝ) :
    (leftJacobian θ).mulVec v = series θ (c₂ θ) (c₃ θ) v :=
  mulVec_leftJacobian h v

theorem mulVec_leftJacobian_neg (v : Vec3 ℝ) :
    (leftJacobian (-θ)).mulVec v = series θ (-c₂ θ) (c₃ θ) v := by
  have hneg : Scalar.epsilon < (-θ).normSq := by rwa [Vec3.normSq_neg]
  rw [mulVec_leftJacobian hneg, Vec3.norm_neg, Vec3.normSq_neg, c₂, c₃]
  ext <;>
  · simp only [series, Vec3.cross, Vec3.scale_eq, Vec3.add_eq, Vec3.neg_eq]
    ring

theorem rotate_exp_leftJacobian_neg (v : Vec3 ℝ) :
    (exp θ).rotate ((leftJacobian (-θ)).mulVec v) = (leftJacobian θ).mulVec v := by
  have h1 := c₁_add h
  have h2 := c₁_sq_add h
  rw [rotate_exp h, mulVec_leftJacobian_neg h, mulVec_leftJacobian_eq h, series_series]
  congr 1
  · linear_combination h2 - c₁ θ * h1
  · linear_combination -c₂ θ * h1

/-- The Jacobian takes the velocity `t × θ` of a turn to the way the turn moves `t` back. -/
theorem leftJacobian_cross_add (t : Vec3 ℝ) :
    (leftJacobian θ).mulVec (t.cross θ) + (exp θ).rotate t = t := by
  have h1 := c₁_add h
  have hseries : series θ (c₂ θ) (c₃ θ) (t.cross θ) + series θ (c₁ θ) (c₂ θ) t =
      series θ (c₁ θ + θ.normSq * c₃ θ - 1) 0 t := by
    ext <;>
    · simp only [series, Vec3.cross, Vec3.scale_eq, Vec3.add_eq, Vec3.normSq_eq]
      ring
  rw [mulVec_leftJacobian_eq h, rotate_exp h, hseries, h1, sub_self, series_zero]

end Large

section Unit

variable {q : SO3 ℝ} (hq : q.normSq = 1)

theorem rotate_scale (q : SO3 ℝ) (v : Vec3 ℝ) (c : ℝ) :
    q.rotate (v.scale c) = (q.rotate v).scale c := by
  ext <;> simp only [rotate, vector, Vec3.cross, Vec3.scale_eq, Vec3.add_eq] <;> ring

include hq

/-- A rotation takes vector products to vector products: the difference is a multiple of
`1 - |q|²`. -/
theorem rotate_cross (u v : Vec3 ℝ) : q.rotate (u.cross v) = (q.rotate u).cross (q.rotate v) := by
  have hdefect : (q.rotate u).cross (q.rotate v) = q.rotate (u.cross v) +
      ((q.rotate u).cross v + u.cross (q.rotate v) + -q.rotate (u.cross v) + -u.cross v).scale
      (1 - q.normSq) := by
    ext <;>
    · simp only [rotate, vector, normSq, Vec3.cross, Vec3.scale_eq, Vec3.add_eq, Vec3.neg_eq,
        Scalar.two_real]
      ring
  rw [hdefect, hq, sub_self]
  ext <;> simp only [Vec3.add_eq, Vec3.scale_eq, mul_zero, add_zero]

theorem rotate_series (θ v : Vec3 ℝ) (a b : ℝ) :
    q.rotate (series θ a b v) = series (q.rotate θ) a b (q.rotate v) := by
  simp only [series, rotate_add, rotate_scale, rotate_cross hq]

theorem compose_ofParts (w : ℝ) (φ : Vec3 ℝ) :
    q.compose (ofParts w φ) = (ofParts w (q.rotate φ)).compose q := by
  unfold normSq at hq
  ext
  · simp only [compose, ofParts, rotate, vector, Vec3.cross, Vec3.scale_eq, Vec3.add_eq,
      Scalar.two_real]
    ring
  · simp only [compose, ofParts, rotate, vector, Vec3.cross, Vec3.scale_eq, Vec3.add_eq,
      Scalar.two_real]
    linear_combination 2 * (φ.y * q.k - φ.z * q.j) * hq
  · simp only [compose, ofParts, rotate, vector, Vec3.cross, Vec3.scale_eq, Vec3.add_eq,
      Scalar.two_real]
    linear_combination 2 * (φ.z * q.i - φ.x * q.k) * hq
  · simp only [compose, ofParts, rotate, vector, Vec3.cross, Vec3.scale_eq, Vec3.add_eq,
      Scalar.two_real]
    linear_combination 2 * (φ.x * q.j - φ.y * q.i) * hq

theorem normSq_rotate (φ : Vec3 ℝ) : (q.rotate φ).normSq = φ.normSq := by
  have hlength := congrArg normSq (compose_ofParts hq 0 φ)
  rw [normSq_compose, normSq_compose, hq, normSq_ofParts, normSq_ofParts] at hlength
  linarith

theorem rotate_leftJacobian {θ : Vec3 ℝ} (h : Scalar.epsilon < θ.normSq) (v : Vec3 ℝ) :
    q.rotate ((leftJacobian θ).mulVec v) = (leftJacobian (q.rotate θ)).mulVec (q.rotate v) := by
  have hsq := normSq_rotate hq θ
  have hnorm : (q.rotate θ).norm = θ.norm := by rw [Vec3.norm, hsq]; rfl
  rw [mulVec_leftJacobian h, mulVec_leftJacobian (hsq ▸ h), rotate_series hq, hsq, hnorm]

end Unit

/-- The exponential is a multiple of the rotation vector; both parts depend on the length only. -/
theorem exists_exp :
    ∃ w k : ℝ → ℝ, ∀ φ : Vec3 ℝ, exp φ = ofParts (w φ.normSq) (φ.scale (k φ.normSq)) := by
  classical
  refine ⟨fun s => if Scalar.epsilon < s then Real.cos (Real.sqrt s / 2)
    else 1 / Real.sqrt (1 + s / 4), fun s =>
    if Scalar.epsilon < s then Real.sin (Real.sqrt s / 2) / Real.sqrt s else
      1 / (2 * Real.sqrt (1 + s / 4)), fun φ => ?_⟩
  by_cases h : Scalar.epsilon < φ.normSq
  · simp only [if_pos h]
    exact exp_of_lt h
  · simp only [if_neg h]
    exact exp_of_le (not_lt.mp h)

theorem compose_exp {q : SO3 ℝ} (hq : q.normSq = 1) (φ : Vec3 ℝ) :
    q.compose (exp φ) = (exp (q.rotate φ)).compose q := by
  obtain ⟨w, k, hexp⟩ := exists_exp
  rw [hexp, hexp, normSq_rotate hq, compose_ofParts hq, rotate_scale]

theorem exp_neg (φ : Vec3 ℝ) : exp (-φ) = (exp φ).inverse := by
  obtain ⟨w, k, hexp⟩ := exists_exp
  rw [hexp, hexp, Vec3.normSq_neg]
  ext <;> simp only [ofParts, inverse, Vec3.scale_eq, Vec3.neg_eq, neg_mul]

end SO3

/-! ### Rotations of the plane -/

namespace SO2

theorem hasCoordinates : HasCoordinates (SO2 ℝ) 1 where
  size_coords _ := rfl
  ofCoords_coords _ := rfl
  coords_ofCoords {v} hv := by
    match v, hv with
    | ⟨[_]⟩, _ => rfl
  dim_eq _ := rfl
  height_adjoint _ := Mat.height_identity 1

theorem ofAngle_neg (θ : ℝ) : ofAngle (-θ) = (ofAngle θ).inverse := by
  ext <;> simp [ofAngle, inverse]

theorem compose_comm (r s : SO2 ℝ) : r.compose s = s.compose r := by
  ext <;> simp only [compose] <;> ring

theorem hasAdjoint : HasAdjoint (fun r : SO2 ℝ => r.normSq = 1) fun _ => True :=
  .of_compose hasCoordinates isActingOn.toIsGroupOn
    (fun {r θ} _ _ => by
      rw [show adjoint r = Mat.identity 1 from rfl, hasCoordinates.applied_identity]
      exact compose_comm _ _)
    rfl fun _ _ => (Mat.identity_mul (Mat.height_identity 1)).symm

theorem isReversible : IsReversible (fun r : SO2 ℝ => r.normSq = 1) fun _ => True where
  adjoint_mem _ _ := trivial
  neg_mem _ := trivial
  exp_neg {θ} _ := ofAngle_neg θ

end SO2

/-! ### Rigid motions of the plane -/

namespace SE2

theorem hasCoordinates : HasCoordinates (SE2 ℝ) 3 where
  size_coords _ := rfl
  ofCoords_coords _ := rfl
  coords_ofCoords {v} hv := by
    match v, hv with
    | ⟨[_, _, _]⟩, _ => rfl
  dim_eq _ := rfl
  height_adjoint _ := rfl

namespace Tangent

theorem mulVec_jacobian (a b u c d v : ℝ) (τ : Tangent ℝ) : (jacobian a b u c d v).mulVec τ.coords =
    (⟨a * τ.x + b * τ.y + u * τ.θ, c * τ.x + d * τ.y + v * τ.θ, τ.θ⟩ : Tangent ℝ).coords := by
  have hlast : (0 : ℝ) * τ.x + 0 * τ.y + 1 * τ.θ = τ.θ := by ring
  change (⟨[_, _, (0 : ℝ) * τ.x + 0 * τ.y + 1 * τ.θ]⟩ : Vec ℝ) = _
  rw [hlast]
  rfl

theorem exists_coords {v : Vec ℝ} (h : v.size = 3) : ∃ τ : Tangent ℝ, v = τ.coords := by
  match v, h with
  | ⟨[x, y, θ]⟩, _ => exact ⟨⟨x, y, θ⟩, rfl⟩

theorem jacobian_mul (a b u c d v a' b' u' c' d' v' : ℝ) :
    jacobian a b u c d v * jacobian a' b' u' c' d' v' =
      jacobian (a * a' + b * c') (a * b' + b * d') (a * u' + b * v' + u) (c * a' + d * c')
      (c * b' + d * d')
        (c * u' + d * v' + v) := by
  refine Mat.ext_mulVec rfl rfl fun w hw => ?_
  obtain ⟨τ, rfl⟩ := exists_coords hw
  rw [Mat.mulVec_mul, mulVec_jacobian, mulVec_jacobian, mulVec_jacobian]
  congr 2 <;> ring

theorem jacobian_identity : jacobian 1 0 0 0 1 0 = (Mat.identity 3 : Mat ℝ) := by
  refine Mat.ext_mulVec rfl rfl fun w hw => ?_
  obtain ⟨τ, rfl⟩ := exists_coords hw
  rw [mulVec_jacobian]
  refine Eq.trans ?_ (Mat.mulVec_identity rfl).symm
  congr 2 <;> ring

end Tangent

open Tangent

theorem adjoint_eq (g : SE2 ℝ) : LieStructure.adjoint g =
    jacobian g.rotation.re (-g.rotation.im) g.y g.rotation.im g.rotation.re (-g.x) := rfl

theorem applied_adjoint (g : SE2 ℝ) (τ : Tangent ℝ) : applied (SE2 ℝ) (LieStructure.adjoint g) τ =
    ⟨g.rotation.re * τ.x + -g.rotation.im * τ.y + g.y * τ.θ,
      g.rotation.im * τ.x + g.rotation.re * τ.y + -g.x * τ.θ,
      τ.θ⟩ := by
  unfold applied
  rw [adjoint_eq, show coords (SE2 ℝ) τ = τ.coords from rfl, mulVec_jacobian]
  exact hasCoordinates.ofCoords_coords _

section Large
variable {θ : ℝ} (h : Scalar.epsilon ≤ θ * θ)
include h

theorem coefficients_of_le : coefficients θ = (Real.sin θ / θ, (1 - Real.cos θ) / θ) := by
  unfold coefficients isSmall
  rw [if_neg (by simpa using h)]
  rfl

theorem ne_zero_of_le : θ ≠ 0 := by
  rintro rfl
  rw [mul_zero] at h
  exact h.not_gt Scalar.epsilon_pos

end Large

theorem compose_exp {g : SE2 ℝ} {τ : Tangent ℝ} (h : Scalar.epsilon ≤ τ.θ * τ.θ) :
    g.compose τ.exp = (applied (SE2 ℝ) (LieStructure.adjoint g) τ).exp.compose g := by
  have h0 := ne_zero_of_le h
  rw [applied_adjoint]
  ext
  · simp only [compose, Tangent.exp, transform, shift, SO2.rotate, SO2.ofAngle,
      coefficients_of_le h, Scalar.cos_real, Scalar.sin_real]
    field_simp
    ring
  · simp only [compose, Tangent.exp, transform, shift, SO2.rotate, SO2.ofAngle,
      coefficients_of_le h, Scalar.cos_real, Scalar.sin_real]
    field_simp
    ring
  · exact congrArg SO2.re (SO2.compose_comm _ _)
  · exact congrArg SO2.im (SO2.compose_comm _ _)

theorem exp_neg {τ : Tangent ℝ} (h : Scalar.epsilon ≤ τ.θ * τ.θ) :
    (⟨-τ.x, -τ.y, -τ.θ⟩ : Tangent ℝ).exp = τ.exp.inverse := by
  have h0 := ne_zero_of_le h
  have hneg : Scalar.epsilon ≤ -τ.θ * -τ.θ := by rwa [neg_mul_neg]
  have hcircle := Real.sin_sq_add_cos_sq τ.θ
  ext
  · simp only [inverse, Tangent.exp, shift, SO2.rotate, SO2.ofAngle, SO2.inverse,
      coefficients_of_le h, coefficients_of_le hneg, Scalar.cos_real, Scalar.sin_real, Real.cos_neg,
      Real.sin_neg]
    field_simp
    linear_combination τ.y * hcircle
  · simp only [inverse, Tangent.exp, shift, SO2.rotate, SO2.ofAngle, SO2.inverse,
      coefficients_of_le h, coefficients_of_le hneg, Scalar.cos_real, Scalar.sin_real, Real.cos_neg,
      Real.sin_neg]
    field_simp
    linear_combination -τ.x * hcircle
  · simp [inverse, Tangent.exp, SO2.ofAngle, SO2.inverse]
  · simp [inverse, Tangent.exp, SO2.ofAngle, SO2.inverse]

theorem adjoint_identity : LieStructure.adjoint (identity : SE2 ℝ) = Mat.identity 3 := by
  rw [adjoint_eq, ← jacobian_identity]
  simp [identity, SO2.identity]

theorem adjoint_compose (g h : SE2 ℝ) :
    LieStructure.adjoint (g.compose h) = LieStructure.adjoint g * LieStructure.adjoint h := by
  rw [adjoint_eq, adjoint_eq, adjoint_eq, jacobian_mul]
  simp only [compose, transform, shift, SO2.rotate, SO2.compose]
  congr 1 <;> ring

theorem hasAdjoint :
    HasAdjoint (fun g : SE2 ℝ => g.rotation.normSq = 1) fun τ => Scalar.epsilon ≤ τ.θ * τ.θ :=
  .of_compose hasCoordinates isActingOn.toIsGroupOn (fun _ => compose_exp) adjoint_identity
    fun _ _ => adjoint_compose _ _

theorem isReversible :
    IsReversible (fun g : SE2 ℝ => g.rotation.normSq = 1) fun τ => Scalar.epsilon ≤ τ.θ * τ.θ where
  adjoint_mem {g τ} _ hτ := by
    rw [applied_adjoint]
    exact hτ
  neg_mem {τ} hτ := by
    change Scalar.epsilon ≤ -τ.θ * -τ.θ
    rwa [neg_mul_neg]
  exp_neg hτ := exp_neg hτ

end SE2

/-! ### Rotations of space -/

namespace SO3

theorem hasCoordinates : HasCoordinates (SO3 ℝ) 3 where
  size_coords _ := rfl
  ofCoords_coords _ := rfl
  coords_ofCoords {v} hv := by
    obtain ⟨u, rfl⟩ := Vec3.exists_toList hv
    rfl
  dim_eq _ := rfl
  height_adjoint _ := rfl

theorem rotationMatrix_identity : (identity : SO3 ℝ).rotationMatrix = Mat3.identity := by
  ext <;> simp [rotationMatrix, identity, Mat3.identity]

theorem rotationMatrix_compose (q r : SO3 ℝ) :
    (q.compose r).rotationMatrix = q.rotationMatrix * r.rotationMatrix :=
  Mat3.ext_mulVec fun v => by rw [Mat3.mulVec_mul, mulVec_rotationMatrix_compose]

theorem applied_adjoint {q : SO3 ℝ} (hq : q.normSq = 1) (φ : Vec3 ℝ) :
    applied (SO3 ℝ) (LieStructure.adjoint q) φ = q.rotate φ :=
  mulVec_rotationMatrix hq φ

theorem hasAdjoint : HasAdjoint (fun q : SO3 ℝ => q.normSq = 1) fun _ => True :=
  .of_compose hasCoordinates isActingOn.toIsGroupOn
    (fun {q φ} hq _ => by
      rw [applied_adjoint hq]
      exact compose_exp hq φ)
    ((congrArg Mat3.toMat rotationMatrix_identity).trans Mat3.toMat_identity)
    fun {q r} _ _ => (congrArg Mat3.toMat (rotationMatrix_compose q r)).trans (Mat3.toMat_mul _ _)

theorem isReversible : IsReversible (fun q : SO3 ℝ => q.normSq = 1) fun _ => True where
  adjoint_mem _ _ := trivial
  neg_mem _ := trivial
  exp_neg {φ} _ := exp_neg φ

end SO3

/-! ### Rigid motions of space -/

namespace SE3

theorem hasCoordinates : HasCoordinates (SE3 ℝ) 6 where
  size_coords _ := rfl
  ofCoords_coords _ := rfl
  coords_ofCoords {v} hv := by
    match v, hv with
    | ⟨[_, _, _, _, _, _]⟩, _ => rfl
  dim_eq _ := rfl
  height_adjoint _ := rfl

theorem applied_blockUpper (a b : Mat3 ℝ) (τ : Tangent ℝ) :
    applied (SE3 ℝ) (Mat3.blockUpper a b) τ = ⟨a.mulVec τ.ρ + b.mulVec τ.θ, a.mulVec τ.θ⟩ := by
  unfold applied
  rw [show coords (SE3 ℝ) τ = ⟨τ.ρ.toList ++ τ.θ.toList⟩ from rfl, Mat3.mulVec_blockUpper]
  rfl

theorem adjoint_eq (g : SE3 ℝ) : LieStructure.adjoint g =
    Mat3.blockUpper g.rotation.rotationMatrix (g.shift.hat * g.rotation.rotationMatrix) := rfl

theorem applied_adjoint {g : SE3 ℝ} (hg : g.rotation.normSq = 1) (τ : Tangent ℝ) :
    applied (SE3 ℝ) (LieStructure.adjoint g) τ =
      ⟨g.rotation.rotate τ.ρ + g.shift.cross (g.rotation.rotate τ.θ), g.rotation.rotate τ.θ⟩ := by
  rw [adjoint_eq, applied_blockUpper, Mat3.mulVec_mul, Mat3.mulVec_hat,
    SO3.mulVec_rotationMatrix hg, SO3.mulVec_rotationMatrix hg]

theorem compose_exp {g : SE3 ℝ} {τ : Tangent ℝ} (hg : g.rotation.normSq = 1)
    (h : Scalar.epsilon < τ.θ.normSq) :
    g.compose τ.exp = (applied (SE3 ℝ) (LieStructure.adjoint g) τ).exp.compose g := by
  have hθ : Scalar.epsilon < (g.rotation.rotate τ.θ).normSq := by rwa [SO3.normSq_rotate hg]
  rw [applied_adjoint hg]
  refine SE3.ext ?_ (SO3.compose_exp hg τ.θ)
  change g.rotation.rotate ((SO3.leftJacobian τ.θ).mulVec τ.ρ) + g.shift =
    (SO3.exp (g.rotation.rotate τ.θ)).rotate g.shift +
      (SO3.leftJacobian (g.rotation.rotate τ.θ)).mulVec
        (g.rotation.rotate τ.ρ + g.shift.cross (g.rotation.rotate τ.θ))
  have hcross := SO3.leftJacobian_cross_add hθ g.shift
  rw [Mat3.mulVec_add, ← SO3.rotate_leftJacobian hg h]
  conv_lhs => rw [← hcross]
  ext <;> simp only [Vec3.add_eq] <;> ring

theorem exp_neg {τ : Tangent ℝ} (h : Scalar.epsilon < τ.θ.normSq) : (-τ).exp = τ.exp.inverse := by
  refine SE3.ext ?_ (SO3.exp_neg τ.θ)
  change (SO3.leftJacobian (-τ.θ)).mulVec (-τ.ρ) =
    -(SO3.exp τ.θ).inverse.rotate ((SO3.leftJacobian τ.θ).mulVec τ.ρ)
  have hneg : Scalar.epsilon < (-τ.θ).normSq := by rwa [Vec3.normSq_neg]
  have hturn := SO3.rotate_exp_leftJacobian_neg hneg τ.ρ
  rw [Vec3.neg_neg, SO3.exp_neg] at hturn
  rw [Mat3.mulVec_neg, hturn]

theorem adjoint_identity : LieStructure.adjoint (identity : SE3 ℝ) = Mat.identity 6 := by
  rw [adjoint_eq, ← Mat3.blockUpper_identity]
  change Mat3.blockUpper (SO3.identity : SO3 ℝ).rotationMatrix
    (Vec3.zero.hat * SO3.identity.rotationMatrix) = _
  rw [SO3.rotationMatrix_identity]
  congr 1
  exact Mat3.ext_mulVec fun v => by rw [Mat3.mulVec_mul, Mat3.mulVec_identity]

theorem adjoint_compose {g h : SE3 ℝ} (hg : g.rotation.normSq = 1) :
    LieStructure.adjoint (g.compose h) = LieStructure.adjoint g * LieStructure.adjoint h := by
  rw [adjoint_eq, adjoint_eq, adjoint_eq, Mat3.blockUpper_mul]
  change Mat3.blockUpper (g.rotation.compose h.rotation).rotationMatrix
    ((g.rotation.rotate h.shift + g.shift).hat * (g.rotation.compose h.rotation).rotationMatrix) = _
  rw [SO3.rotationMatrix_compose]
  congr 1
  refine Mat3.ext_mulVec fun v => ?_
  simp only [Mat3.add_mulVec, Mat3.mulVec_mul, Mat3.mulVec_hat, SO3.mulVec_rotationMatrix hg,
    SO3.rotate_cross hg]
  ext <;>
  · simp only [Vec3.add_eq, Vec3.cross]
    ring

theorem hasAdjoint :
    HasAdjoint (fun g : SE3 ℝ => g.rotation.normSq = 1) fun τ => Scalar.epsilon < τ.θ.normSq :=
  .of_compose hasCoordinates isActingOn.toIsGroupOn compose_exp adjoint_identity fun hg _ =>
    adjoint_compose hg

theorem isReversible :
    IsReversible (fun g : SE3 ℝ => g.rotation.normSq = 1) fun τ => Scalar.epsilon < τ.θ.normSq where
  adjoint_mem {g τ} hg hτ := by
    rw [applied_adjoint hg]
    change Scalar.epsilon < (g.rotation.rotate τ.θ).normSq
    rwa [SO3.normSq_rotate hg]
  neg_mem {τ} hτ := by
    change Scalar.epsilon < (-τ.θ).normSq
    rwa [Vec3.normSq_neg]
  exp_neg hτ := exp_neg hτ

end SE3

/-- **Updates move past elements by the adjoint matrices, and the Jacobians of the group operations
are exact**, in the rotations and the rigid motions of the plane and of space. -/
theorem jacobians_exact :
    HasExactJacobians (fun r : SO2 ℝ => r.normSq = 1) (fun _ => True) ∧
      HasExactJacobians (fun q : SO3 ℝ => q.normSq = 1) (fun _ => True) ∧
      HasExactJacobians (fun g : SE2 ℝ => g.rotation.normSq = 1)
        (fun τ => Scalar.epsilon ≤ τ.θ * τ.θ) ∧
      HasExactJacobians (fun g : SE3 ℝ => g.rotation.normSq = 1) fun τ =>
        Scalar.epsilon < τ.θ.normSq :=
  ⟨SO2.hasAdjoint.exactJacobians SO2.isActingOn SO2.hasCoordinates SO2.isReversible,
    SO3.hasAdjoint.exactJacobians SO3.isActingOn SO3.hasCoordinates SO3.isReversible,
    SE2.hasAdjoint.exactJacobians SE2.isActingOn SE2.hasCoordinates SE2.isReversible,
    SE3.hasAdjoint.exactJacobians SE3.isActingOn SE3.hasCoordinates SE3.isReversible⟩

namespace QuarterTurn

theorem turn_z_eq : turn.z = Real.pi / 2 := by
  norm_num [turn]
  ring

theorem one_lt_turn : 1 < turn.z * turn.z := by
  rw [turn_z_eq]
  nlinarith [Real.pi_gt_three]

theorem normSq_turn : turn.normSq = turn.z * turn.z := by simp [Vec3.normSq_eq, turn]

theorem epsilon_lt_one : Scalar.epsilon < (1 : ℝ) := by norm_num [Scalar.epsilon_real]

/-- A rigid motion of the plane that is neither a shift nor a rotation about the origin. -/
noncomputable def planar : SE2 ℝ := ⟨1, 0.5, ⟨0.6, 0.8⟩⟩

theorem normSq_planar : planar.rotation.normSq = 1 := by norm_num [planar, SO2.normSq]

theorem jacobians_exact_turn :
    planar.compose (SE2.Tangent.exp ⟨1, 2, turn.z⟩) =
        (applied (SE2 ℝ) planar.adjoint ⟨1, 2, turn.z⟩).exp.compose planar ∧
      start.compose (SO3.exp turn) =
        (SO3.exp (applied (SO3 ℝ) start.rotationMatrix.toMat turn)).compose start ∧
      SE3.compose ⟨turn, start⟩ (SE3.Tangent.exp ⟨⟨1, 2, 3⟩, turn⟩) =
        (applied (SE3 ℝ) (SE3.adjoint ⟨turn, start⟩) ⟨⟨1, 2, 3⟩, turn⟩).exp.compose ⟨turn, start⟩ ∧
      SE3.adjoint (SE3.compose ⟨turn, start⟩ ⟨turn, stored⟩) =
        SE3.adjoint ⟨turn, start⟩ * SE3.adjoint ⟨turn, stored⟩ ∧
      SE3.adjoint ⟨turn, start⟩ * SE3.adjoint (SE3.inverse ⟨turn, start⟩) = Mat.identity 6 ∧
      between (plus (⟨turn, start⟩ : SE3 ℝ) ⟨⟨1, 2, 3⟩, turn⟩) ⟨turn, stored⟩ =
        plus (between (⟨turn, start⟩ : SE3 ℝ) ⟨turn, stored⟩)
          (applied (SE3 ℝ) (betweenJacobian (⟨turn, start⟩ : SE3 ℝ) ⟨turn, stored⟩)
            ⟨⟨1, 2, 3⟩, turn⟩) := by
  have hlarge : Scalar.epsilon < turn.normSq := normSq_turn ▸ epsilon_lt_one.trans one_lt_turn
  obtain ⟨-, hrotation, hmotion2, hmotion3⟩ := jacobians_exact
  exact ⟨hmotion2.compose_exp normSq_planar (epsilon_lt_one.trans one_lt_turn).le,
    hrotation.compose_exp normSq_start trivial, hmotion3.compose_exp normSq_start hlarge,
    hmotion3.adjoint_compose normSq_start normSq_stored, hmotion3.adjoint_mul_inverse normSq_start,
    hmotion3.between_plus normSq_start normSq_stored hlarge⟩

end QuarterTurn

end Smoothing
