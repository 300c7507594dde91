import Mathlib
import Smoothing.Linear.Subgraph
import Smoothing.Proofs.BlockVector.Space
import Smoothing.Proofs.ConjugateGradients

/-!
# The run of conjugate gradients

The iteration works on block vectors, which are points of a space, with an operator that computes a
linear map of this space (`Computes`). Every state has the residual `b - T y` of its solution `y`
and its squared norm, and is a state of conjugate gradients (`Iterate.Holds`).

From a residual that is not zero a step divides by positive numbers and keeps this
(`Holds.exists_step`). So a run ends in such a state, below the threshold if it may take as many
steps as the space has dimensions (`Holds.exists_run`).
-/

open scoped RealInnerProductSpace

namespace Smoothing

namespace SubgraphSolver

variable {dims : KeyMap ℕ}

/-- An operator on block vectors that computes a linear map. -/
def Computes (operator : BlockVector ℝ → LinearRun ℝ (BlockVector ℝ))
    (T : Space dims →ₗ[ℝ] Space dims) : Prop :=
  ∀ y : BlockVector ℝ, y.widths = dims → ∃ z, (operator y).outcome = .ok z ∧ z.widths = dims ∧
    toSpace dims z.coord = T (toSpace dims y.coord)

namespace Iterate

/-- What holds of every state, with the subspace that was searched. -/
structure Holds (T : Space dims →ₗ[ℝ] Space dims) (b : Space dims) (K : Submodule ℝ (Space dims))
    (s : Iterate ℝ) : Prop where
  solution : s.solution.widths = dims
  residual : s.residual.widths = dims
  direction : s.direction.widths = dims
  residualSq : s.residualSq = s.residual.normSq
  eq_sub : toSpace dims s.residual.coord = b - T (toSpace dims s.solution.coord)
  krylov : IsKrylov T K (toSpace dims s.residual.coord) (toSpace dims s.direction.coord)

theorem Holds.start (T : Space dims →ₗ[ℝ] Space dims) {rhs : BlockVector ℝ}
    (h : rhs.widths = dims) : Holds T (toSpace dims rhs.coord) ⊥ (Iterate.start rhs) := by
  refine ⟨BlockVector.widths_zerosLike h, h, h, rfl, ?_, IsKrylov.start T _⟩
  have hzero : toSpace dims (Iterate.start rhs).solution.coord = 0 := by
    ext a
    exact BlockVector.coord_zerosLike rhs _ _
  rw [hzero, map_zero, sub_zero]
  rfl

/-- The states of a run. -/
inductive Reached (operator : BlockVector ℝ → LinearRun ℝ (BlockVector ℝ)) (threshold : ℝ)
    (s₀ : Iterate ℝ) : Iterate ℝ → Prop
  | start : Reached operator threshold s₀ s₀
  | next {s s' : Iterate ℝ} : Reached operator threshold s₀ s → threshold < s.norm →
      (s.step operator).outcome = .ok s' → Reached operator threshold s₀ s'

section Step
variable {operator : BlockVector ℝ → LinearRun ℝ (BlockVector ℝ)} {T : Space dims →ₗ[ℝ] Space dims}
  {b : Space dims} {K : Submodule ℝ (Space dims)} {s : Iterate ℝ} (h : Holds T b K s)
include h

theorem Holds.residualSq_eq_inner :
    s.residualSq = ⟪toSpace dims s.residual.coord, toSpace dims s.residual.coord⟫ := by
  rw [h.residualSq, BlockVector.normSq_eq_inner h.residual]

theorem Holds.norm_eq : s.norm = ‖toSpace dims s.residual.coord‖ := by
  rw [Iterate.norm, h.residualSq, ← BlockVector.norm_eq_norm h.residual, BlockVector.norm]

theorem Holds.residual_ne_zero {threshold : ℝ} (ht : 0 ≤ threshold) (hs : threshold < s.norm) :
    toSpace dims s.residual.coord ≠ 0 := by
  intro hzero
  rw [h.norm_eq, hzero, norm_zero] at hs
  linarith

/-- The next state, with the residual added to the subspace that was searched. -/
theorem Holds.next (hT : IsPositiveDefinite T) (hr : toSpace dims s.residual.coord ≠ 0)
    {image : BlockVector ℝ} (hw : image.widths = dims)
    (hv : toSpace dims image.coord = T (toSpace dims s.direction.coord)) :
    Holds T b (K ⊔ Submodule.span ℝ {toSpace dims s.residual.coord})
      (s.next image (s.direction.dot image)) := by
  set a := s.residualSq / s.direction.dot image with ha
  set s' := s.next image (s.direction.dot image) with hs'
  have hsolution : s'.solution.widths = dims := BlockVector.widths_axpy h.direction h.solution a
  have hresidual : s'.residual.widths = dims := BlockVector.widths_axpy hw h.residual (-a)
  have hr' : toSpace dims s'.residual.coord =
      toSpace dims s.residual.coord - a • T (toSpace dims s.direction.coord) := by
    rw [← hv, sub_eq_neg_add, ← neg_smul]
    exact BlockVector.toSpace_axpy hw h.residual (-a)
  have hy' : toSpace dims s'.solution.coord =
      a • toSpace dims s.direction.coord + toSpace dims s.solution.coord :=
    BlockVector.toSpace_axpy h.direction h.solution a
  have hp' : toSpace dims s'.direction.coord =
      toSpace dims s'.residual.coord + (s'.residualSq / s.residualSq) •
      toSpace dims s.direction.coord := by
    rw [add_comm]
    exact BlockVector.toSpace_axpy h.direction hresidual _
  have hsq' : s'.residualSq = ⟪toSpace dims s'.residual.coord, toSpace dims s'.residual.coord⟫ :=
    BlockVector.normSq_eq_inner hresidual
  refine ⟨hsolution, hresidual, BlockVector.widths_axpy h.direction hresidual _, rfl, ?_, ?_⟩
  · rw [hr', hy', h.eq_sub, map_add, map_smul]
    abel
  · rw [hp']
    refine h.krylov.step hT hr ?_ hr' ?_
    · rw [ha, h.residualSq_eq_inner, BlockVector.dot_eq_inner h.direction, hv]
    · rw [hsq', h.residualSq_eq_inner]

/-- **One step** from a residual that is not zero has positive curvature, so it divides by positive
numbers, and keeps what holds of every state. -/
theorem Holds.exists_step (hop : Computes operator T) (hT : IsPositiveDefinite T)
    (hr : toSpace dims s.residual.coord ≠ 0) :
    0 < s.residualSq ∧ ∃ image, (operator s.direction).outcome = .ok image ∧
      0 < s.direction.dot image ∧
      (s.step operator).outcome = .ok (s.next image (s.direction.dot image)) ∧
        Holds T b (K ⊔ Submodule.span ℝ {toSpace dims s.residual.coord})
          (s.next image (s.direction.dot image)) := by
  obtain ⟨image, himage, hw, hv⟩ := hop s.direction h.direction
  have hcurv : 0 < s.direction.dot image := by
    rw [BlockVector.dot_eq_inner h.direction, hv]
    exact h.krylov.curvature_pos hT hr
  have hsq : 0 < s.residualSq := by
    rw [h.residualSq_eq_inner]
    exact real_inner_self_pos.mpr hr
  refine ⟨hsq, image, himage, hcurv, ?_, h.next hT hr hw hv⟩
  have hgo : ¬ ((!Scalar.isFinite (s.direction.dot image) || decide (s.direction.dot image ≤ 0)) =
      true) := by
    simp [hcurv]
  rw [step, Logged.outcome_bind_ok _ himage]
  simp only [if_neg hgo]
  rfl

/-- **A run** ends in a state that holds, and with as many steps as dimensions are left below the
threshold. -/
theorem Holds.exists_run (hop : Computes operator T) (hT : IsPositiveDefinite T) {threshold : ℝ}
    (ht : 0 ≤ threshold) (hs : threshold < s.norm) {s₀ : Iterate ℝ}
    (hreach : Reached operator threshold s₀ s) (n i : ℕ) :
    ∃ converged last, (run operator threshold n i s).outcome = .ok (converged, last) ∧
      Reached operator threshold s₀ last ∧ (∃ K', Holds T b K' last) ∧
        (converged = true → last.norm ≤ threshold) ∧
          (Module.finrank ℝ (Space dims) ≤ Module.finrank ℝ K + n → converged = true) := by
  induction n generalizing K s i with
  | zero =>
    refine ⟨false, s, rfl, hreach, ⟨K, h⟩, fun hf => absurd hf Bool.false_ne_true, fun hn => ?_⟩
    exact absurd (h.krylov.eq_zero_of_finrank_le (by omega)) (h.residual_ne_zero ht hs)
  | succ n ih =>
    have hr := h.residual_ne_zero ht hs
    obtain ⟨-, image, -, -, hstep, hnext⟩ := h.exists_step hop hT hr
    have hdim := h.krylov.finrank_sup hr
    have hreach' := hreach.next hs hstep
    rw [run, Logged.outcome_bind_ok _ hstep, Logged.outcome_bind_ok _ (Logged.outcome_report _)]
    by_cases hle : (s.next image (s.direction.dot image)).norm ≤ threshold
    · refine ⟨true, _, ?_, hreach', ⟨_, hnext⟩, fun _ => hle, fun _ => rfl⟩
      rw [if_pos hle, Logged.outcome_bind_ok _ (Logged.outcome_report _)]
      rfl
    · obtain ⟨converged, last, hrun, hlast, hholds, hnorm, hconv⟩ :=
        ih hnext (not_le.mp hle) hreach' (i + 1)
      refine ⟨converged, last, ?_, hlast, hholds, hnorm, fun hn => hconv (by omega)⟩
      rw [if_neg hle, hrun]

end Step

theorem Reached.exists_holds {operator : BlockVector ℝ → LinearRun ℝ (BlockVector ℝ)}
    {T : Space dims →ₗ[ℝ] Space dims} (hop : Computes operator T) (hT : IsPositiveDefinite T)
    {threshold : ℝ} (ht : 0 ≤ threshold) {b : Space dims} {K : Submodule ℝ (Space dims)}
    {s₀ s : Iterate ℝ} (h₀ : Holds T b K s₀) (h : Reached operator threshold s₀ s) :
    ∃ K', Holds T b K' s := by
  induction h with
  | start => exact ⟨K, h₀⟩
  | next _ hs hstep ih =>
    obtain ⟨K', hK⟩ := ih
    obtain ⟨-, image, -, -, hstep', hnext⟩ := hK.exists_step hop hT (hK.residual_ne_zero ht hs)
    rw [hstep] at hstep'
    cases hstep'
    exact ⟨_, hnext⟩

end Iterate

end SubgraphSolver

end Smoothing
