import Mathlib

/-!
# Conjugate gradients in exact arithmetic

A symmetric positive operator `T` on a space with an inner product. After some steps of conjugate
gradients there is a subspace, spanned by the residuals so far, to which the residual is orthogonal
and the direction of search conjugate (`IsKrylov`). A step from a residual other than zero has
positive curvature (`IsKrylov.curvature_pos`), keeps this for the subspace that has the residual too
(`IsKrylov.step`), and raises its dimension by one (`IsKrylov.finrank_sup`). So in a space of
dimension `n` at most `n` residuals are not zero (`IsKrylov.eq_zero_of_finrank_le`). The residuals
need not get smaller, but every step lowers the quadratic function that the operator is the gradient
of (`IsKrylov.energy_lt`).

The operator of a least squares problem in two parts, of which the first is solved, is `1 + BᵀB`
(`normalOperator`), its residual is the gradient of both parts (`inner_add_inner_eq_residual`), and
its quadratic function their squares (`norm_sq_add_norm_sq_eq_energy`).
-/

open scoped RealInnerProductSpace

namespace Smoothing

variable {E : Type} [NormedAddCommGroup E] [InnerProductSpace ℝ E]

/-- An operator that is symmetric and positive. -/
structure IsPositiveDefinite (T : E →ₗ[ℝ] E) : Prop where
  symmetric : ∀ u v, ⟪T u, v⟫ = ⟪u, T v⟫
  positive : ∀ u, u ≠ 0 → 0 < ⟪u, T u⟫

/-- The subspace that was searched, the residual `r` and the next direction `p`. -/
structure IsKrylov (T : E →ₗ[ℝ] E) (K : Submodule ℝ E) (r p : E) : Prop where
  orthogonal : ∀ v ∈ K, ⟪r, v⟫ = 0
  conjugate : ∀ v ∈ K, ⟪T p, v⟫ = 0
  image : ∀ v ∈ K, T v ∈ K ⊔ Submodule.span ℝ {r}
  direction : p - r ∈ K

/-- The quadratic function with the gradient `2 (T y - b)`. -/
noncomputable def energy (T : E →ₗ[ℝ] E) (b y : E) : ℝ := ⟪T y - b, y⟫ - ⟪b, y⟫

theorem IsPositiveDefinite.energy_add {T : E →ₗ[ℝ] E} (hT : IsPositiveDefinite T) (b y v : E) :
    energy T b (v + y) = energy T b y - 2 * ⟪b - T y, v⟫ + ⟪v, T v⟫ := by
  have hcross : ⟪T v, y⟫ = ⟪T y, v⟫ := by rw [hT.symmetric, real_inner_comm]
  simp only [energy, map_add, inner_add_left, inner_add_right, inner_sub_left, hcross,
    real_inner_comm v (T v)]
  ring

theorem mem_sup_span (K : Submodule ℝ E) (r : E) : r ∈ K ⊔ Submodule.span ℝ {r} :=
  Submodule.mem_sup_right (Submodule.mem_span_singleton_self r)

namespace IsKrylov

theorem start (T : E →ₗ[ℝ] E) (r : E) : IsKrylov T ⊥ r r := by
  refine ⟨fun v hv => ?_, fun v hv => ?_,
    fun v hv => ?_, by rw [sub_self]; exact Submodule.zero_mem _⟩
  · rw [(Submodule.mem_bot ℝ).mp hv, inner_zero_right]
  · rw [(Submodule.mem_bot ℝ).mp hv, inner_zero_right]
  · rw [(Submodule.mem_bot ℝ).mp hv, map_zero]
    exact Submodule.zero_mem _

variable {T : E →ₗ[ℝ] E} {K : Submodule ℝ E} {r p : E} (h : IsKrylov T K r p)
include h

theorem inner_direction : ⟪r, p⟫ = ⟪r, r⟫ := by
  have hd := h.orthogonal _ h.direction
  rw [inner_sub_right] at hd
  linarith

theorem curvature_pos (hT : IsPositiveDefinite T) (hr : r ≠ 0) : 0 < ⟪p, T p⟫ := by
  refine hT.positive p ?_
  rintro rfl
  have hp := h.inner_direction
  rw [inner_zero_right, eq_comm, inner_self_eq_zero] at hp
  exact hr hp

/-- **A step lowers the quadratic function** by the squared norm of the residual times the length of
the step. -/
theorem energy_step (hT : IsPositiveDefinite T) (hr : r ≠ 0) {a : ℝ} (ha : a = ⟪r, r⟫ / ⟪p, T p⟫)
    {b y : E} (hy : r = b - T y) : energy T b (a • p + y) = energy T b y - a * ⟪r, r⟫ := by
  have hline : a * ⟪p, T p⟫ = ⟪r, r⟫ := by rw [ha, div_mul_cancel₀ _ (h.curvature_pos hT hr).ne']
  rw [hT.energy_add, ← hy, map_smul, inner_smul_right, inner_smul_right, real_inner_smul_left,
    h.inner_direction, hline]
  ring

theorem energy_lt (hT : IsPositiveDefinite T) (hr : r ≠ 0) {a : ℝ} (ha : a = ⟪r, r⟫ / ⟪p, T p⟫)
    {b y : E} (hy : r = b - T y) : energy T b (a • p + y) < energy T b y := by
  have hrr : 0 < ⟪r, r⟫ := real_inner_self_pos.mpr hr
  have hpos : 0 < a * ⟪r, r⟫ := by
    rw [ha]
    exact mul_pos (div_pos hrr (h.curvature_pos hT hr)) hrr
  rw [h.energy_step hT hr ha hy]
  linarith

omit h in
theorem curvature_eq_zero (h : IsKrylov T K 0 p) : ⟪p, T p⟫ = 0 := by
  have hp : p ∈ K := by simpa using h.direction
  rw [real_inner_comm]
  exact h.conjugate p hp

theorem direction_mem : p ∈ K ⊔ Submodule.span ℝ {r} := by
  have hp : p = (p - r) + r := (sub_add_cancel p r).symm
  rw [hp]
  exact Submodule.add_mem _ (Submodule.mem_sup_left h.direction) (mem_sup_span K r)

theorem eq_zero_of_mem_sup {w v : E} (hK : ∀ u ∈ K, ⟪w, u⟫ = 0) (hp : ⟪w, p⟫ = 0)
    (hv : v ∈ K ⊔ Submodule.span ℝ {r}) : ⟪w, v⟫ = 0 := by
  obtain ⟨u, hu, u', hu', rfl⟩ := Submodule.mem_sup.mp hv
  obtain ⟨c, rfl⟩ := Submodule.mem_span_singleton.mp hu'
  have hr : ⟪w, r⟫ = 0 := by
    have hd := hK _ h.direction
    rw [inner_sub_right, hp, zero_sub, neg_eq_zero] at hd
    exact hd
  rw [inner_add_right, inner_smul_right, hK u hu, hr, mul_zero, add_zero]

/-- **A step keeps the residual orthogonal and the direction conjugate.** -/
theorem step (hT : IsPositiveDefinite T) (hr : r ≠ 0) {a b : ℝ} {r' : E}
    (ha : a = ⟪r, r⟫ / ⟪p, T p⟫) (hr' : r' = r - a • T p) (hb : b = ⟪r', r'⟫ / ⟪r, r⟫) :
    IsKrylov T (K ⊔ Submodule.span ℝ {r}) r' (r' + b • p) := by
  have hcurv := h.curvature_pos hT hr
  have hrr : ⟪r, r⟫ ≠ 0 := inner_self_ne_zero.mpr hr
  have ha0 : a ≠ 0 := by
    rw [ha]
    exact div_ne_zero hrr hcurv.ne'
  have hTp : T p = a⁻¹ • (r - r') := by
    rw [hr', sub_sub_cancel, smul_smul, inv_mul_cancel₀ ha0, one_smul]
  have horth : ∀ v ∈ K ⊔ Submodule.span ℝ {r}, ⟪r', v⟫ = 0 := by
    refine fun v hv => h.eq_zero_of_mem_sup (fun u hu => ?_) ?_ hv
    · rw [hr', inner_sub_left, inner_smul_left, h.orthogonal u hu, h.conjugate u hu]
      simp
    · rw [hr', inner_sub_left, inner_smul_left, h.inner_direction, real_inner_comm p (T p), ha]
      simp only [conj_trivial]
      field_simp
      ring
  have himage : ∀ v ∈ K, T v ∈ K ⊔ Submodule.span ℝ {r} := h.image
  refine ⟨horth, fun v hv => ?_, fun v hv => ?_, ?_⟩
  · refine h.eq_zero_of_mem_sup (fun u hu => ?_) ?_ hv
    · rw [map_add, map_smul, inner_add_left, inner_smul_left, h.conjugate u hu, mul_zero, add_zero,
        hT.symmetric]
      exact horth _ (himage u hu)
    · rw [map_add, map_smul, inner_add_left, inner_smul_left, hT.symmetric, hTp, inner_smul_right,
        inner_sub_right, horth r (mem_sup_span K r), ← hTp, real_inner_comm p (T p), hb, ha]
      simp only [conj_trivial]
      field_simp
      ring
  · obtain ⟨u, hu, u', hu', rfl⟩ := Submodule.mem_sup.mp hv
    obtain ⟨c, rfl⟩ := Submodule.mem_span_singleton.mp hu'
    have hK' : ∀ w ∈ K ⊔ Submodule.span ℝ {r},
        w ∈ (K ⊔ Submodule.span ℝ {r}) ⊔ Submodule.span ℝ {r'} :=
      fun w hw => Submodule.mem_sup_left hw
    have hTr : T r ∈ (K ⊔ Submodule.span ℝ {r}) ⊔ Submodule.span ℝ {r'} := by
      have hsplit : T r = a⁻¹ • (r - r') - T (p - r) := by
        rw [map_sub, ← hTp]
        abel
      rw [hsplit]
      refine Submodule.sub_mem _ (Submodule.smul_mem _ _ (Submodule.sub_mem _ (hK' r
        (mem_sup_span K r)) ?_)) (hK' _ (himage _ h.direction))
      exact mem_sup_span _ r'
    rw [map_add, map_smul]
    exact Submodule.add_mem _ (hK' _ (himage u hu)) (Submodule.smul_mem _ _ hTr)
  · rw [add_sub_cancel_left]
    exact Submodule.smul_mem _ _ h.direction_mem

variable [FiniteDimensional ℝ E]

theorem finrank_sup (hr : r ≠ 0) :
    Module.finrank ℝ K + 1 ≤ Module.finrank ℝ (K ⊔ Submodule.span ℝ {r} : Submodule ℝ E) := by
  refine Nat.succ_le_of_lt (Submodule.finrank_lt_finrank_of_lt ?_)
  refine lt_of_le_of_ne le_sup_left fun heq => hr ?_
  have hmem := mem_sup_span K r
  rw [← heq] at hmem
  exact inner_self_eq_zero.mp (h.orthogonal r hmem)

/-- **In a subspace of full dimension the residual is zero.** -/
theorem eq_zero_of_finrank_le (hK : Module.finrank ℝ E ≤ Module.finrank ℝ K) : r = 0 := by
  by_contra hr
  have h1 := h.finrank_sup hr
  have h2 := Submodule.finrank_le (K ⊔ Submodule.span ℝ {r})
  omega

end IsKrylov

/-! ### Least squares in two parts -/

section TwoParts
variable {F G : Type} [NormedAddCommGroup F] [InnerProductSpace ℝ F] [NormedAddCommGroup G]
  [InnerProductSpace ℝ G]

/-- Two problems with the same squares up to a number have the same gradients. -/
theorem inner_eq_of_norm_sq {A : E →ₗ[ℝ] F} {b : F} {R : E →ₗ[ℝ] G} {d : G} {e : ℝ}
    (h : ∀ u, ‖A u - b‖ ^ 2 = ‖R u - d‖ ^ 2 + e) (u v : E) : ⟪b - A u, A v⟫ = ⟪d - R u, R v⟫ := by
  have hA : ∀ w, ‖A (u + w) - b‖ ^ 2 = ‖b - A u‖ ^ 2 - 2 * ⟪b - A u, A w⟫ + ‖A w‖ ^ 2 := by
    intro w
    rw [map_add, ← norm_sub_sq_real, ← norm_neg]
    congr 2
    abel
  have hR : ∀ w, ‖R (u + w) - d‖ ^ 2 = ‖d - R u‖ ^ 2 - 2 * ⟪d - R u, R w⟫ + ‖R w‖ ^ 2 := by
    intro w
    rw [map_add, ← norm_sub_sq_real, ← norm_neg]
    congr 2
    abel
  have h1 := h (u + v)
  have h2 := h (u + -v)
  rw [hA, hR] at h1 h2
  simp only [map_neg, inner_neg_right, norm_neg] at h2
  linarith

theorem norm_sq_eq_of_norm_sq {A : E →ₗ[ℝ] F} {b : F} {R : E →ₗ[ℝ] G} {d : G} {e : ℝ}
    (h : ∀ u, ‖A u - b‖ ^ 2 = ‖R u - d‖ ^ 2 + e) (v : E) : ‖A v‖ ^ 2 = ‖R v‖ ^ 2 := by
  have h1 := inner_eq_of_norm_sq h 0 v
  have h2 := inner_eq_of_norm_sq h v v
  rw [map_zero, map_zero, sub_zero, sub_zero] at h1
  rw [inner_sub_left, inner_sub_left, h1, real_inner_self_eq_norm_sq,
    real_inner_self_eq_norm_sq] at h2
  linarith

theorem norm_sq_eq_add_of_inner_eq_zero {A : E →ₗ[ℝ] F} {b : F} {x : E}
    (h : ∀ v, ⟪b - A x, A v⟫ = 0) (u : E) : ‖A u - b‖ ^ 2 = ‖A x - b‖ ^ 2 + ‖A (u - x)‖ ^ 2 := by
  have hsplit : A u - b = A (u - x) - (b - A x) := by
    rw [map_sub]
    abel
  rw [hsplit, norm_sub_sq_real, real_inner_comm, h, norm_sub_rev b]
  ring

variable [FiniteDimensional ℝ E] [FiniteDimensional ℝ F]

/-- The operator `1 + BᵀB`. -/
noncomputable def normalOperator (B : E →ₗ[ℝ] F) : E →ₗ[ℝ] E :=
  LinearMap.id + LinearMap.adjoint B ∘ₗ B

/-- The right-hand side `Bᵀ b`. -/
noncomputable def normalTarget (B : E →ₗ[ℝ] F) (b : F) : E := LinearMap.adjoint B b

theorem inner_normalTarget (B : E →ₗ[ℝ] F) (b : F) (u : E) : ⟪normalTarget B b, u⟫ = ⟪b, B u⟫ :=
  LinearMap.adjoint_inner_left B u b

theorem inner_normalOperator (B : E →ₗ[ℝ] F) (u v : E) :
    ⟪normalOperator B u, v⟫ = ⟪u, v⟫ + ⟪B u, B v⟫ := by
  rw [normalOperator, LinearMap.add_apply, inner_add_left, LinearMap.id_apply, LinearMap.comp_apply,
    LinearMap.adjoint_inner_left]

theorem isPositiveDefinite_normalOperator (B : E →ₗ[ℝ] F) :
    IsPositiveDefinite (normalOperator B) := by
  refine ⟨fun u v => ?_, fun u hu => ?_⟩
  · rw [inner_normalOperator, real_inner_comm (normalOperator B v) u, inner_normalOperator,
      real_inner_comm v u, real_inner_comm (B v) (B u)]
  · have hpos : 0 < ⟪u, u⟫ := real_inner_self_pos.mpr hu
    have hB : 0 ≤ ⟪B u, B u⟫ := real_inner_self_nonneg
    rw [real_inner_comm, inner_normalOperator]
    linarith

/-- **The preconditioned residual is the gradient of both parts**: if the squares of the first part
are those of an invertible system, solved at `x̄`, then at `x̄ + R⁻¹ y` the gradients of both parts
add up to the residual `Bᵀ (b₂ - A₂ x̄) - (1 + BᵀB) y` with `B = A₂ R⁻¹`. -/
theorem inner_add_inner_eq_residual {A₁ : E →ₗ[ℝ] G} {b₁ : G} {A₂ : E →ₗ[ℝ] F} {b₂ : F}
    {R : E ≃ₗ[ℝ] E} {xbar : E} {e : ℝ} (h : ∀ u, ‖A₁ u - b₁‖ ^ 2 = ‖R u - R xbar‖ ^ 2 + e)
    (y v : E) : ⟪b₁ - A₁ (xbar + R.symm y), A₁ v⟫ + ⟪b₂ - A₂ (xbar + R.symm y), A₂ v⟫ =
      ⟪normalTarget (A₂ ∘ₗ R.symm.toLinearMap) (b₂ - A₂ xbar) -
        normalOperator (A₂ ∘ₗ R.symm.toLinearMap) y, R v⟫ := by
  set B : E →ₗ[ℝ] F := A₂ ∘ₗ R.symm.toLinearMap with hB
  have hBv : A₂ v = B (R v) := by
    rw [hB, LinearMap.comp_apply, LinearEquiv.coe_coe, R.symm_apply_apply]
  have hBy : A₂ (xbar + R.symm y) = A₂ xbar + B y := map_add A₂ _ _
  have h₁ : ⟪b₁ - A₁ (xbar + R.symm y), A₁ v⟫ = -⟪y, R v⟫ := by
    have hR := inner_eq_of_norm_sq (R := R.toLinearMap) h (xbar + R.symm y) v
    rw [hR, LinearEquiv.coe_coe, map_add, R.apply_symm_apply, sub_add_cancel_left, inner_neg_left]
  rw [h₁, inner_sub_left (normalTarget B _), inner_normalOperator, inner_normalTarget, hBv, hBy,
    sub_add_eq_sub_sub, inner_sub_left (b₂ - A₂ xbar)]
  ring

/-- **The squares of both parts** are the quadratic function of the operator, up to a number. -/
theorem norm_sq_add_norm_sq_eq_energy {A₁ : E →ₗ[ℝ] G} {b₁ : G} {A₂ : E →ₗ[ℝ] F} {b₂ : F}
    {R : E ≃ₗ[ℝ] E} {xbar : E} {e : ℝ} (h : ∀ u, ‖A₁ u - b₁‖ ^ 2 = ‖R u - R xbar‖ ^ 2 + e) (y : E) :
    ‖A₁ (xbar + R.symm y) - b₁‖ ^ 2 + ‖A₂ (xbar + R.symm y) - b₂‖ ^ 2 =
      energy (normalOperator (A₂ ∘ₗ R.symm.toLinearMap))
        (normalTarget (A₂ ∘ₗ R.symm.toLinearMap) (b₂ - A₂ xbar)) y + (e + ‖b₂ - A₂ xbar‖ ^ 2) := by
  set B : E →ₗ[ℝ] F := A₂ ∘ₗ R.symm.toLinearMap with hB
  have h₁ : ‖A₁ (xbar + R.symm y) - b₁‖ ^ 2 = ⟪y, y⟫ + e := by
    rw [h, map_add, R.apply_symm_apply, add_sub_cancel_left, real_inner_self_eq_norm_sq]
  have h₂ : A₂ (xbar + R.symm y) - b₂ = B y - (b₂ - A₂ xbar) := by
    rw [map_add, hB, LinearMap.comp_apply, LinearEquiv.coe_coe]
    abel
  rw [h₁, h₂, norm_sub_sq_real, energy, inner_sub_left, inner_normalOperator, inner_normalTarget,
    real_inner_self_eq_norm_sq (B y), real_inner_comm (B y)]
  ring

end TwoParts

end Smoothing
