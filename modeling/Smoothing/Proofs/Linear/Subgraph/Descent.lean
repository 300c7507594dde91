import Mathlib
import Smoothing.Proofs.Linear.Coverage
import Smoothing.Proofs.Linear.Subgraph.Cap
import Smoothing.Proofs.Linear.Subgraph.Restrict

/-!
# Conjugate gradients lower the error

The error of the whole problem at `x̄ + R₁⁻¹ y` is half the quadratic function of the operator at
`y`, up to a number (`Eliminated.exists_error_eq`). A step of conjugate gradients goes to the least
value of this function on a line (`Iterate.Holds.energy_lt`), so every step lowers the error
(`Eliminated.exists_error_lt`), although the norms of the residuals may grow. So no state has a
larger error than the solution `x̄` of the subgraph (`Eliminated.exists_error_le`), and this holds
of all that the solver hands back (**`solve_lowers_error`**).

The thresholds do not matter for this, nor whether the subgraph has all variables.
-/

namespace Smoothing

/-! ### Errors on some variables -/

section Restrict
variable {dims : KeyMap ℕ} {x : BlockVector ℝ} (hx : ∀ k ∈ x.keys, k ∈ dims.keys)
include hx

theorem GaussianFactor.sq_restrict (f : GaussianFactor ℝ) :
    (f.restrict dims).sq x.coord = f.sq x.coord := by
  rw [← normSq_residual, ← normSq_residual, residual, f.multiply_restrict hx]
  rfl

theorem GaussianGraph.factorsSq_restrict (g : GaussianGraph ℝ) :
    factorsSq (g.restrict dims).factors x.coord = factorsSq g.factors x.coord := by
  rw [factorsSq, restrict, List.map_map]
  exact congrArg List.sum (List.map_congr_left fun f _ => f.sq_restrict hx)

end Restrict

namespace SubgraphSolver

variable {dims : KeyMap ℕ}

/-! ### Steps -/

namespace Iterate

variable {operator : BlockVector ℝ → LinearRun ℝ (BlockVector ℝ)} {T : Space dims →ₗ[ℝ] Space dims}
  (hop : Computes operator T) (hT : IsPositiveDefinite T) {b : Space dims}
  {K : Submodule ℝ (Space dims)} {s t t' : Iterate ℝ}
include hop

/-- A step has the curvature of the operator, so it is not one from a vanishing residual. -/
theorem Holds.residual_ne_zero_of_step (h : Holds T b K t)
    (hstep : (t.step operator).outcome = .ok t') : toSpace dims t.residual.coord ≠ 0 := by
  intro hzero
  obtain ⟨image, himage, hcurv, -⟩ := exists_image_of_step hstep
  obtain ⟨z, hz, -, hv⟩ := hop t.direction h.direction
  cases hz.symm.trans himage
  have hkrylov := h.krylov
  rw [hzero] at hkrylov
  rw [BlockVector.dot_eq_inner h.direction, hv] at hcurv
  exact hcurv hkrylov.curvature_eq_zero.le

include hT

/-- **A step lowers the quadratic function of the operator**, and leads to such a state again. -/
theorem Holds.energy_lt (h : Holds T b K t) (hstep : (t.step operator).outcome = .ok t') :
    (∃ K', Holds T b K' t') ∧
      energy T b (toSpace dims t'.solution.coord) < energy T b (toSpace dims t.solution.coord) := by
  have hr := h.residual_ne_zero_of_step hop hstep
  obtain ⟨image, himage, -, rfl⟩ := exists_image_of_step hstep
  obtain ⟨z, hz, hw, hv⟩ := hop t.direction h.direction
  cases hz.symm.trans himage
  refine ⟨⟨_, h.next hT hr hw hv⟩, ?_⟩
  have hsolution : toSpace dims (t.next image (t.direction.dot image)).solution.coord =
      (t.residualSq / t.direction.dot image) • toSpace dims t.direction.coord +
      toSpace dims t.solution.coord :=
    BlockVector.toSpace_axpy h.direction h.solution _
  rw [hsolution]
  refine h.krylov.energy_lt hT hr ?_ h.eq_sub
  rw [h.residualSq_eq_inner, BlockVector.dot_eq_inner h.direction, hv]

/-- **After any steps** the state holds and the quadratic function is no larger than at the
start. -/
theorem energy_le_of_after {n : ℕ} (h : Holds T b K s) (ht : (after operator s n).outcome = .ok t) :
    (∃ K', Holds T b K' t) ∧
      energy T b (toSpace dims t.solution.coord) ≤ energy T b (toSpace dims s.solution.coord) := by
  induction n generalizing t with
  | zero =>
    cases ht
    exact ⟨⟨K, h⟩, le_rfl⟩
  | succ n ih =>
    obtain ⟨u, hu, hstep⟩ := after_succ_eq_ok.mp ht
    obtain ⟨⟨K', hK'⟩, hle⟩ := ih hu
    obtain ⟨hholds, hlt⟩ := hK'.energy_lt hop hT hstep
    exact ⟨hholds, hlt.le.trans hle⟩

end Iterate

/-! ### The error of the whole problem -/

theorem exists_eliminated_of_optimize {tree : GaussianGraph ℝ} {o : EliminationOrder}
    {net : BayesNet ℝ} {xbar : BlockVector ℝ} (hnet : (tree.eliminate o).outcome = .ok net)
    (hxbar : net.optimize.outcome = .ok xbar) : ∃ dims, Eliminated dims tree net xbar := by
  have ho := GaussianGraph.perm_keys_of_optimize (Logged.outcome_bind_eq_ok.mpr ⟨net, hnet, hxbar⟩)
  have htree : tree.factors.Perm (tree.factors ++ (⟨[]⟩ : GaussianGraph ℝ).factors) := by
    rw [List.append_nil]
  obtain ⟨dims, xbar', h, -⟩ := exists_eliminated htree ho hnet
  cases h.optimize.symm.trans hxbar
  exact ⟨dims, h⟩

namespace Eliminated

variable {g tree rest : GaussianGraph ℝ} {net : BayesNet ℝ} {xbar rhs : BlockVector ℝ}
  (h : Eliminated dims tree net xbar) (hg : g.factors.Perm (tree.factors ++ rest.factors))
  (hrhs : (rightHandSide net rest xbar).outcome = .ok rhs)
include h hg hrhs

/-- **The error of the whole problem** at `x̄ + R₁⁻¹ y` is half the quadratic function of the
operator, up to a number. -/
theorem exists_error_eq : ∃ c, ∀ x y, x.widths = dims →
    toSpace dims x.coord = toSpace dims xbar.coord + h.rows.symm y →
      g.error x =
      (energy (normalOperator (h.products (rest.restrict dims))) (h.target (rest.restrict dims)) y +
        c) / 2 := by
  have hr := consistent_restrict hrhs h.widths
  obtain ⟨e, he⟩ := h.norm_sq_eq
  refine ⟨e + ‖rhsRows (rest.restrict dims).factors -
    valueMap dims (rest.restrict dims).factors (toSpace dims xbar.coord)‖ ^ 2, fun x y hx hxy => ?_⟩
  rw [GaussianGraph.error_eq, factorsSq_perm hg, factorsSq_append,
    ← rest.factorsSq_restrict (BlockVector.mem_keys_of_widths hx),
    factorsSq_eq_norm_sq h.consistent, factorsSq_eq_norm_sq hr, hxy,
      norm_sq_add_norm_sq_eq_energy he]
  rfl

section States
variable {n : ℕ} {t : Iterate ℝ}
  (ht : (Iterate.after (apply net rest) (Iterate.start rhs) n).outcome = .ok t)
include ht

omit hg in
/-- Every state is one of conjugate gradients, and the quadratic function is no larger than at
zero. -/
theorem holds_of_after :
    (∃ K, t.Holds
      (normalOperator (h.products (rest.restrict dims))) (h.target (rest.restrict dims)) K) ∧
      energy (normalOperator (h.products (rest.restrict dims))) (h.target (rest.restrict dims))
          (toSpace dims t.solution.coord) ≤
        energy (normalOperator (h.products (rest.restrict dims)))
          (h.target (rest.restrict dims)) 0 := by
  have hzero : toSpace dims (Iterate.start rhs).solution.coord = 0 := by
    ext a
    exact BlockVector.coord_zerosLike rhs _ _
  rw [← hzero]
  exact Iterate.energy_le_of_after (h.computes_apply_restrict hrhs)
    (isPositiveDefinite_normalOperator _) (h.holds_start (h.isTarget_restrict hrhs)) ht

omit hg in
theorem residual_eq_axpy :
    ∃ image, (apply net rest t.solution).outcome = .ok image ∧
    t.residual = BlockVector.axpy (-1) image rhs := by
  obtain ⟨⟨K, hK⟩, -⟩ := h.holds_of_after hrhs ht
  have htarget := h.isTarget_restrict hrhs
  obtain ⟨image, himage, hw, hv⟩ := h.computes_apply_restrict hrhs t.solution hK.solution
  refine ⟨image, himage,
    BlockVector.eq_of_toSpace_eq hK.residual (BlockVector.widths_axpy hw htarget.widths _) ?_⟩
  rw [BlockVector.toSpace_axpy hw htarget.widths, hv, htarget.eq_target, hK.eq_sub, neg_one_smul,
    sub_eq_neg_add]

/-- **No state has a larger error than the solution of the subgraph.** -/
theorem exists_error_le :
    ∃ x, (combine net xbar t.solution).outcome = .ok x ∧ g.error x ≤ g.error xbar := by
  obtain ⟨⟨K, hK⟩, hle⟩ := h.holds_of_after hrhs ht
  obtain ⟨c, hc⟩ := h.exists_error_eq hg hrhs
  obtain ⟨x, hx, hw, hxy⟩ := h.exists_combine hK.solution
  refine ⟨x, hx, ?_⟩
  rw [hc x _ hw hxy, hc xbar 0 h.widths (by rw [map_zero, add_zero])]
  linarith

/-- **A step from a residual that is not zero succeeds and lowers the error.** -/
theorem exists_error_lt (hr : t.residual.norm ≠ 0) :
    ∃ t' x x', (t.step (apply net rest)).outcome = .ok t' ∧
    (combine net xbar t.solution).outcome = .ok x ∧
      (combine net xbar t'.solution).outcome = .ok x' ∧ g.error x' < g.error x := by
  have hop := h.computes_apply_restrict hrhs
  have hT := isPositiveDefinite_normalOperator (h.products (rest.restrict dims))
  obtain ⟨⟨K, hK⟩, -⟩ := h.holds_of_after hrhs ht
  have hne : toSpace dims t.residual.coord ≠ 0 := by
    rwa [BlockVector.norm_eq_norm hK.residual, norm_ne_zero_iff] at hr
  obtain ⟨-, image, -, -, hstep, -⟩ := hK.exists_step hop hT hne
  obtain ⟨⟨K', hK'⟩, hlt⟩ := hK.energy_lt hop hT hstep
  obtain ⟨c, hc⟩ := h.exists_error_eq hg hrhs
  obtain ⟨x, hx, hw, hxy⟩ := h.exists_combine hK.solution
  obtain ⟨x', hx', hw', hxy'⟩ := h.exists_combine hK'.solution
  refine ⟨_, x, x', hstep, hx, hx', ?_⟩
  rw [hc x _ hw hxy, hc x' _ hw' hxy']
  linarith

end States

end Eliminated

/-! ### The solver -/

theorem outcome_solve {s : SubgraphSolver ℝ} {g tree rest : GaussianGraph ℝ} {o : EliminationOrder}
    {net : BayesNet ℝ} {xbar : BlockVector ℝ} (hsplit : (s.split g).outcome = .ok (tree, rest))
    (hnet : (tree.eliminate o).outcome = .ok net) (hxbar : net.optimize.outcome = .ok xbar) :
    (s.solve g o).outcome =
      (if rest.isEmpty then pure xbar else s.conjugateGradient net rest xbar : LinearRun ℝ
        (BlockVector ℝ)).outcome := by
  rw [solve, Logged.outcome_bind_ok _ hsplit, Logged.outcome_bind_ok _ hnet,
    Logged.outcome_bind_ok _ hxbar]

/-- **Conjugate gradients lower the error of the whole problem.** Let the subgraph of a problem be
eliminated, with the solution `x̄`, and let the tolerances be any numbers.

* Every state of the iteration has the residual of its solution, and the vector `x̄ + R₁⁻¹ y` for it
has no larger error than `x̄`. A step from a residual that is not zero succeeds and lowers the
error.
* So what is answered has no larger error than `x̄`, and neither has the best solution that a stop
at the cap tells.
* A stop at the cap comes after as many steps as are allowed. The norm it tells is the least of all
residuals up to then, and the best solution is the one with this residual.
* If the best solution is accepted, it is answered exactly where the solver stops at the cap
otherwise, and nothing else is different. -/
theorem solve_lowers_error {s : SubgraphSolver ℝ} {g tree rest : GaussianGraph ℝ}
    {o : EliminationOrder} {net : BayesNet ℝ} {xbar : BlockVector ℝ}
    (hsplit : (s.split g).outcome = .ok (tree, rest)) (hnet : (tree.eliminate o).outcome = .ok net)
    (hxbar : net.optimize.outcome = .ok xbar) :
    (∀ rhs n t, (rightHandSide net rest xbar).outcome = .ok rhs →
      (Iterate.after (apply net rest) (Iterate.start rhs) n).outcome = .ok t →
        (∃ image, (apply net rest t.solution).outcome = .ok image ∧
          t.residual = BlockVector.axpy (-1) image rhs) ∧
        (∃ x, (combine net xbar t.solution).outcome = .ok x ∧ g.error x ≤ g.error xbar) ∧
        (t.residual.norm ≠ 0 →
          ∃ t' x x', (t.step (apply net rest)).outcome = .ok t' ∧
            (combine net xbar t.solution).outcome = .ok x ∧
            (combine net xbar t'.solution).outcome = .ok x' ∧ g.error x' < g.error x)) ∧
    (∀ x, (s.solve g o).outcome = .ok x → g.error x ≤ g.error xbar) ∧
    (∀ n residual best, (s.solve g o).outcome = .error (.cause (.notConverged n residual best)) →
      g.error best ≤ g.error xbar ∧ n = s.params.maxIterations ∧
        ∃ rhs, (rightHandSide net rest xbar).outcome = .ok rhs ∧
          (∃ m ≤ n, ∃ t, (Iterate.after (apply net rest) (Iterate.start rhs) m).outcome = .ok t ∧
            t.residual.norm = residual ∧ (combine net xbar t.solution).outcome = .ok best) ∧
          ∀ m ≤ n, ∃ t, (Iterate.after (apply net rest) (Iterate.start rhs) m).outcome = .ok t ∧
            residual ≤ t.residual.norm) ∧
    ((s.withAccept true).solve g o).outcome =
      accepting ((s.withAccept false).solve g o).outcome := by
  have hg := perm_of_split hsplit
  obtain ⟨dims, h⟩ := exists_eliminated_of_optimize hnet hxbar
  have hsolve := outcome_solve hsplit hnet hxbar
  have hle : ∀ {rhs n t x}, (rightHandSide net rest xbar).outcome = .ok rhs →
      (Iterate.after (apply net rest) (Iterate.start rhs) n).outcome = .ok t →
        (combine net xbar t.solution).outcome = .ok x → g.error x ≤ g.error xbar := by
    intro rhs n t x hrhs ht hx
    obtain ⟨x', hx', hle⟩ := h.exists_error_le hg hrhs ht
    cases hx'.symm.trans hx
    exact hle
  refine ⟨fun rhs n t hrhs ht => ⟨h.residual_eq_axpy hrhs ht, h.exists_error_le hg hrhs ht,
    h.exists_error_lt hg hrhs ht⟩, fun x hx => ?_, fun n residual best hstop => ?_,
    outcome_solve_withAccept s g o⟩
  · rw [hsolve] at hx
    split at hx
    · cases hx
      exact le_rfl
    obtain ⟨rhs, n, t, hrhs, ht, hx | hx⟩ := conjugateGradient_eq_ok hx
    · exact hle hrhs ht hx
    · obtain ⟨m, -, u, hu, hbest, -⟩ := (Iterate.isBest_of_after ht).exists_state
      exact hle hrhs hu (hbest ▸ hx)
  · rw [hsolve] at hstop
    split at hstop
    · cases hstop
    obtain ⟨hn, rhs, t, hrhs, ht, hnorm, hbest⟩ := conjugateGradient_eq_notConverged hstop
    have hisBest := Iterate.isBest_of_after ht
    obtain ⟨m, hm, u, hu, hsolution, hu'⟩ := hisBest.exists_state
    rw [← hsolution] at hbest
    refine ⟨hle hrhs hu hbest, hn, rhs, hrhs, ⟨m, hm, u, hu, ?_, hbest⟩, fun m hm => ?_⟩
    · rw [← Iterate.norm_of_after hu, hu', hnorm]
    · obtain ⟨u, hu⟩ := Iterate.exists_after_of_le hm ht
      refine ⟨u, hu, ?_⟩
      rw [← hnorm, ← Iterate.norm_of_after hu]
      exact hisBest.bestNorm_le m hm u hu

end SubgraphSolver

/-! ### Three equations -/

namespace TwoEquations

open SubgraphSolver

@[simp] theorem cols_entry (a : ℝ) : (entry a).cols = 1 := rfl

@[simp] theorem get_entry (a : ℝ) : (entry a).get 0 0 = a := rfl

theorem value_third (p : Key → ℕ → ℝ) : third.value p 0 = p firstKey 0 := by
  simp [GaussianFactor.value, third]

/-- The third equation does not go with the two others, so the right-hand side is not zero. -/
theorem exists_rightHandSide_third {dims : KeyMap ℕ} {xbar : BlockVector ℝ}
    (h : Eliminated dims problem net xbar) :
    ∃ rhs, (rightHandSide net ⟨[third]⟩ xbar).outcome = .ok rhs ∧ rhs.norm ≠ 0 := by
  have hr : Consistent dims (⟨[third]⟩ : GaussianGraph ℝ).factors := by
    intro f hf t ht
    rw [List.mem_singleton.mp hf] at ht
    rw [List.mem_singleton.mp ht]
    exact h.consistent first List.mem_cons_self (firstKey, entry 1) List.mem_cons_self
  have hvalues := value_eq_of_conditionalsSq_eq_zero h.solved
  have hfirst : xbar.coord firstKey 0 + xbar.coord secondKey 0 = 1 := by
    simpa [Conditional.value] using hvalues _ List.mem_cons_self 0 one_pos
  have hsecond : xbar.coord secondKey 0 = 1 := by
    simpa [Conditional.value] using hvalues _ (List.mem_cons_of_mem _ List.mem_cons_self) 0 one_pos
  have hresidual : (third.rhs - third.multiply xbar).get 0 = 1 - xbar.coord firstKey 0 := by
    rw [Vec.get_sub (third.size_multiply xbar).symm, third.get_multiply, value_third]
    rfl
  obtain ⟨rhs, hrhs, hw, hinner⟩ := h.exists_rightHandSide hr h.widths
  refine ⟨rhs, hrhs, fun hzero => ?_⟩
  rw [BlockVector.norm_eq_norm hw, norm_eq_zero] at hzero
  -- the gradient in the direction of both variables is the residual of the third equation
  have hgradient := hinner (toSpace dims fun _ _ => 1)
  have hheight : third.height = 1 := rfl
  rw [hzero, inner_zero_left, ← toRows_residual hr, valueMap_toSpace hr, inner_toRows,
    List.map_singleton, List.sum_singleton, hheight, Finset.sum_range_one, hresidual,
    value_third] at hgradient
  linarith

/-- The solver with the two equations as the subgraph that may not take a step. -/
def stopped : SubgraphSolver ℝ := ⟨[true, true, false], ⟨0, 0, 0, false⟩⟩

theorem split_stopped : (stopped.split loop).outcome = .ok (problem, ⟨[third]⟩) := rfl

/-- Without a step the solver stops at the cap. -/
theorem solve_stopped {dims : KeyMap ℕ} {xbar : BlockVector ℝ}
    (h : Eliminated dims problem net xbar) :
    ∃ residual best, (stopped.solve loop order).outcome =
      .error (.cause (.notConverged 0 residual best)) := by
  obtain ⟨rhs, hrhs, hnorm⟩ := exists_rightHandSide_third h
  have hw := (h.isTarget_restrict hrhs).widths
  obtain ⟨best, hbest, -⟩ := h.exists_combine (BlockVector.widths_zerosLike hw)
  have hgo : ¬ (Iterate.start rhs).norm ≤ Scalar.max stopped.params.absoluteTolerance
      (stopped.params.relativeTolerance * (Iterate.start rhs).norm) := by
    change ¬ rhs.norm ≤ Scalar.max 0 (0 * rhs.norm)
    rw [BlockVector.norm_eq_norm hw, norm_ne_zero_iff] at hnorm
    rwa [Scalar.max_real, zero_mul, max_self, BlockVector.norm_eq_norm hw, norm_le_zero_iff]
  have hsolve : (stopped.solve loop order).outcome =
      (stopped.conjugateGradient net ⟨[third]⟩ xbar).outcome :=
    outcome_solve split_stopped eliminate_problem h.optimize
  refine ⟨rhs.norm, best, ?_⟩
  rw [hsolve, conjugateGradient, Logged.outcome_bind_ok _ hrhs]
  dsimp only
  rw [if_neg hgo, Logged.outcome_bind_ok _ rfl]
  exact Logged.outcome_bind_ok _ hbest

/-- The solver without steps hands back a vector that is no worse than the solution of the two
equations, and one step makes it better. -/
theorem solve_lowers_error_loop : ∃ xbar rhs t x' residual best, net.optimize.outcome = .ok xbar ∧
    (rightHandSide net ⟨[third]⟩ xbar).outcome = .ok rhs ∧
    ((Iterate.start rhs).step (apply net ⟨[third]⟩)).outcome = .ok t ∧
    (combine net xbar t.solution).outcome = .ok x' ∧ loop.error x' < loop.error xbar ∧
    (stopped.solve loop order).outcome = .error (.cause (.notConverged 0 residual best)) ∧
    loop.error best ≤ loop.error xbar ∧ ((stopped.withAccept true).solve loop order).outcome =
      .ok best := by
  obtain ⟨dims, xbar, h, -⟩ :=
    exists_eliminated (perm_of_split split_stopped) (List.Perm.refl order.keys)
    eliminate_problem
  obtain ⟨rhs, hrhs, hnorm⟩ := exists_rightHandSide_third h
  obtain ⟨residual, best, hstop⟩ := solve_stopped h
  obtain ⟨hstates, -, hcap, haccept⟩ :=
    solve_lowers_error split_stopped eliminate_problem h.optimize
  obtain ⟨-, ⟨x, hx, hle⟩, hstep⟩ := hstates rhs 0 _ hrhs rfl
  obtain ⟨t, x₀, x', ht, hx₀, hx', hlt⟩ := hstep hnorm
  cases hx₀.symm.trans hx
  refine ⟨xbar, rhs, t, x', residual, best, h.optimize, hrhs, ht, hx', hlt.trans_le hle, hstop,
    (hcap 0 residual best hstop).1, ?_⟩
  rw [haccept]
  change accepting (stopped.solve loop order).outcome = _
  rw [hstop]
  rfl

end TwoEquations

end Smoothing
