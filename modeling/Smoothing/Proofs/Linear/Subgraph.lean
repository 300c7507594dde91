import Mathlib
import Smoothing.Proofs.Linear.NormalEquations
import Smoothing.Proofs.Linear.Subgraph.Iterate
import Smoothing.Proofs.Linear.Subgraph.Operator

/-!
# Solving by conjugate gradients

The solver answers a vector `x̄ + R₁⁻¹ y` with a small residual of `y` (`Eliminated.Converged`), or
there are fewer steps than dimensions and it answers only if that is accepted
(`Eliminated.exists_solve`).

* With as many steps as columns it answers, and without tolerance with the solution
(`solve_converges`).
* What it tests is the gradient of the whole problem (`norm_gradient_le`).
-/

open Finset

namespace Smoothing

namespace SubgraphSolver

theorem consistent_of_fits {dims : KeyMap ℕ} {rest : GaussianGraph ℝ} {x : BlockVector ℝ}
    (hx : x.widths = dims) (hk : ∀ f ∈ rest.factors, ∀ k ∈ f.keys, k ∈ dims.keys)
    (h : rest.fits x = true) : Consistent dims rest.factors := by
  intro f hf t ht
  obtain ⟨w, hw⟩ := KeyMap.mem_keys_iff_exists.mp (hk f hf t.1 (List.mem_map.mpr ⟨t, ht, rfl⟩))
  obtain ⟨v, hv, hs⟩ := BlockVector.exists_of_get?_widths (hx ▸ hw)
  rw [hw, ← hs, GaussianFactor.fits_iff.mp (List.all_eq_true.mp h f hf) t ht v hv]

theorem fits_of_rightHandSide {net : BayesNet ℝ} {rest : GaussianGraph ℝ} {x rhs : BlockVector ℝ}
    (h : (rightHandSide net rest x).outcome = .ok rhs) : rest.fits x = true := by
  unfold rightHandSide at h
  split_ifs at h with hfits
  · exact hfits
  · exact absurd h Logged.outcome_sizes_ne_ok

/-- Where the rest of a problem has factors, the solver computed their products with `x̄`, so their
blocks fit. -/
theorem consistent_of_answer {s : SubgraphSolver ℝ} {dims : KeyMap ℕ} {net : BayesNet ℝ}
    {rest : GaussianGraph ℝ} {xbar x : BlockVector ℝ} (hxbar : xbar.widths = dims)
    (hk : ∀ f ∈ rest.factors, ∀ k ∈ f.keys, k ∈ dims.keys)
    (hx : (if rest.isEmpty then pure xbar else s.conjugateGradient net rest xbar).outcome = .ok x) :
    Consistent dims rest.factors := by
  by_cases hempty : rest.isEmpty = true
  · have hfactors : rest.factors = [] := List.isEmpty_iff.mp hempty
    intro f hf
    rw [hfactors] at hf
    cases hf
  · rw [if_neg hempty] at hx
    obtain ⟨rhs, hrhs, -⟩ := Logged.outcome_bind_eq_ok.mp hx
    exact consistent_of_fits hxbar hk (fits_of_rightHandSide hrhs)

namespace Eliminated

variable {dims : KeyMap ℕ} {tree rest : GaussianGraph ℝ} {net : BayesNet ℝ} {xbar : BlockVector ℝ}
  (h : Eliminated dims tree net xbar)
include h

/-- The solution of a state of the iteration with a small residual. -/
structure Converged (rest : GaussianGraph ℝ) (rhs : BlockVector ℝ) (threshold : ℝ)
    (x : BlockVector ℝ) : Prop where
  widths : x.widths = dims
  exists_state : ∃ t K, Iterate.Reached (apply net rest) threshold (Iterate.start rhs) t ∧
    t.Holds (normalOperator (h.products rest)) (h.target rest) K ∧
      (combine net xbar t.solution).outcome = .ok x ∧ t.norm ≤ threshold

theorem exists_combine_converged {rhs : BlockVector ℝ} {threshold : ℝ} {t : Iterate ℝ}
    {K : Submodule ℝ (Space dims)}
    (hreach : Iterate.Reached (apply net rest) threshold (Iterate.start rhs) t)
    (ht : t.Holds (normalOperator (h.products rest)) (h.target rest) K)
    (hnorm : t.norm ≤ threshold) :
    ∃ x, (combine net xbar t.solution).outcome = .ok x ∧ h.Converged rest rhs threshold x := by
  obtain ⟨x, hx, hw, -⟩ := h.exists_combine ht.solution
  exact ⟨x, hx, hw, t, K, hreach, ht, hx, hnorm⟩

omit h in
theorem Converged.exists_residual {h : Eliminated dims tree net xbar} {rhs x : BlockVector ℝ}
    {threshold : ℝ} (hx : h.Converged rest rhs threshold x) :
    ∃ y, toSpace dims x.coord = toSpace dims xbar.coord + h.rows.symm y ∧
      ‖h.target rest - normalOperator (h.products rest) y‖ ≤ threshold := by
  obtain ⟨t, K, -, ht, hxt, hnorm⟩ := hx.exists_state
  obtain ⟨x', hx', -, hxy⟩ := h.exists_combine ht.solution
  obtain rfl : x' = x := Except.ok.inj (hx'.symm.trans hxt)
  refine ⟨_, hxy, ?_⟩
  rwa [← ht.eq_sub, ← ht.norm_eq]

variable (hr : Consistent dims rest.factors)
include hr

theorem computes_apply : Computes (apply net rest) (normalOperator (h.products rest)) :=
  fun _ hy => h.exists_apply hr hy

section Answer
variable {s : SubgraphSolver ℝ} {rhs : BlockVector ℝ} (hrhs : h.IsTarget rest rhs) {threshold : ℝ}
include hrhs

omit hr in
theorem holds_start :
    (Iterate.start rhs).Holds (normalOperator (h.products rest)) (h.target rest) ⊥ := by
  have hholds := Iterate.Holds.start (normalOperator (h.products rest)) hrhs.widths
  rwa [hrhs.eq_target] at hholds

variable
  (hthreshold : threshold = max s.params.absoluteTolerance (s.params.relativeTolerance * rhs.norm))
  (ht : 0 ≤ threshold)
include hthreshold ht

/-- **Conjugate gradients** answer with a small residual, or there are fewer steps than dimensions
and they answer only if that is accepted. -/
theorem exists_conjugateGradient :
    (∃ x, (s.conjugateGradient net rest xbar).outcome = .ok x ∧ h.Converged rest rhs threshold x) ∨
      s.params.maxIterations < dims.total id ∧ (s.params.acceptUnconverged = false →
        ∀ x, ¬ (s.conjugateGradient net rest xbar).outcome = .ok x) := by
  have hholds := h.holds_start hrhs
  set start := Iterate.start rhs with hstart
  have hmax : Scalar.max s.params.absoluteTolerance (s.params.relativeTolerance * start.norm) =
      threshold := by
    rw [Scalar.max_real, hthreshold]
    rfl
  by_cases hle : start.norm ≤ threshold
  · left
    obtain ⟨x, hx, hconv⟩ := h.exists_combine_converged .start hholds hle
    refine ⟨x, ?_, hconv⟩
    rw [conjugateGradient, Logged.outcome_bind_ok _ hrhs.outcome]
    simp only [← hstart, hmax, if_pos hle]
    exact hx
  · obtain ⟨converged, last, hrun, hreach, ⟨K, hlast⟩, hnorm, hconv⟩ :=
      hholds.exists_run (h.computes_apply hr)
      (isPositiveDefinite_normalOperator _) ht (not_le.mp hle) .start s.params.maxIterations 1
    rw [finrank_bot, zero_add, finrank_space] at hconv
    have hsplit : (s.conjugateGradient net rest xbar).outcome =
        (if converged then combine net xbar last.solution
          else do
            let best ← combine net xbar last.best
            if s.params.acceptUnconverged then do
              Logged.report (.gradientCapped s.params.maxIterations last.bestNorm)
              return best
            else (LinearError.notConverged s.params.maxIterations last.bestNorm
                best).stop).outcome := by
      rw [conjugateGradient, Logged.outcome_bind_ok _ hrhs.outcome]
      simp only [← hstart, hmax, if_neg hle]
      rw [Logged.outcome_bind_ok _ hrun]
    cases converged with
    | true =>
      left
      obtain ⟨x, hx, hconv⟩ := h.exists_combine_converged hreach hlast (hnorm rfl)
      refine ⟨x, ?_, hconv⟩
      rw [hsplit, if_pos rfl, hx]
    | false =>
      right
      refine ⟨not_le.mp fun hcap => Bool.false_ne_true (hconv hcap), fun haccept x hx => ?_⟩
      rw [hsplit, if_neg Bool.false_ne_true] at hx
      obtain ⟨best, -, hx⟩ := Logged.outcome_bind_eq_ok.mp hx
      rw [haccept, if_neg Bool.false_ne_true] at hx
      exact LinearError.outcome_stop_ne_ok hx

omit hr hthreshold in
theorem converged_of_isEmpty (hempty : rest.isEmpty = true) :
    h.Converged rest rhs threshold xbar := by
  have hholds := h.holds_start hrhs
  have hfactors : rest.factors = [] := List.isEmpty_iff.mp hempty
  have hrows : rhsRows rest.factors - valueMap dims rest.factors (toSpace dims xbar.coord) = 0 := by
    ext ⟨⟨j, hj⟩, i⟩
    exact absurd hj (by rw [hfactors]; exact Nat.not_lt_zero j)
  have hzero : h.target rest = 0 := by rw [target, hrows, normalTarget, map_zero]
  have hnorm : (Iterate.start rhs).norm ≤ threshold := by
    rw [hholds.norm_eq]
    change ‖toSpace dims rhs.coord‖ ≤ threshold
    rwa [hrhs.eq_target, hzero, norm_zero]
  have hstart : toSpace dims (Iterate.start rhs).solution.coord = 0 := by
    ext a
    exact BlockVector.coord_zerosLike rhs _ _
  obtain ⟨x, hx, hw, hxy⟩ := h.exists_combine hholds.solution
  have hbar : x = xbar := BlockVector.eq_of_toSpace_eq hw h.widths (by
    rw [hxy, hstart, map_zero, add_zero])
  exact ⟨h.widths, _, ⊥, .start, hholds, by rw [hx, hbar], hnorm⟩

/-- **The solver** answers with a small residual, or there are fewer steps than dimensions and it
answers only if that is accepted. -/
theorem exists_solve {g : GaussianGraph ℝ} {o : EliminationOrder}
    (hsplit : (s.split g).outcome = .ok (tree, rest))
    (hnet : (tree.eliminate o).outcome = .ok net) :
    (∃ x, (s.solve g o).outcome = .ok x ∧ h.Converged rest rhs threshold x) ∨
      s.params.maxIterations < dims.total id ∧ (s.params.acceptUnconverged = false →
        ∀ x, ¬ (s.solve g o).outcome = .ok x) := by
  have hsolve : (s.solve g o).outcome =
      (if rest.isEmpty then pure xbar else s.conjugateGradient net rest xbar).outcome := by
    rw [solve, Logged.outcome_bind_ok _ hsplit, Logged.outcome_bind_ok _ hnet,
      Logged.outcome_bind_ok _ h.optimize]
  by_cases hempty : rest.isEmpty = true
  · left
    refine ⟨xbar, ?_, h.converged_of_isEmpty hrhs ht hempty⟩
    rw [hsolve, if_pos hempty]
    rfl
  · rw [hsolve, if_neg hempty]
    exact h.exists_conjugateGradient hr hrhs hthreshold ht

end Answer

/-- **The residual of every state** is the vector `R₁⁻ᵀ Aᵀ (b - A x)` of the whole problem at its
solution. -/
theorem exists_gradient_of_holds {g : GaussianGraph ℝ}
    (hg : g.factors.Perm (tree.factors ++ rest.factors)) {t : Iterate ℝ}
    {K : Submodule ℝ (Space dims)}
    (ht : t.Holds (normalOperator (h.products rest)) (h.target rest) K) :
    ∃ y, (combine net xbar t.solution).outcome = .ok y ∧
      (rightHandSide net g y).outcome = .ok t.residual ∧
      IsGradient net g y t.residual := by
  obtain ⟨y, hy, hw, hxy⟩ := h.exists_combine ht.solution
  obtain ⟨z, hz, hzw, hzg, hzv⟩ := h.exists_gradient hr hg hw hxy
  obtain rfl : z = t.residual :=
    BlockVector.eq_of_toSpace_eq hzw ht.residual (by rw [hzv, ht.eq_sub])
  exact ⟨y, hy, hz, hzg⟩

end Eliminated

/-- With as many steps as columns the solver answers with a small residual. -/
theorem exists_converged {s : SubgraphSolver ℝ} {g tree rest : GaussianGraph ℝ}
    {o : EliminationOrder} {net : BayesNet ℝ} {dims : KeyMap ℕ} (hdims : g.dims.outcome = .ok dims)
    (ho : o.keys.Perm g.keys.keys) (hsplit : (s.split g).outcome = .ok (tree, rest))
    (hnet : (tree.eliminate o).outcome = .ok net) (habs : 0 ≤ s.params.absoluteTolerance)
    (hcap : dims.total id ≤ s.params.maxIterations) :
    ∃ (xbar : BlockVector ℝ) (h : Eliminated dims tree net xbar) (rhs x : BlockVector ℝ),
      Consistent dims rest.factors ∧ h.IsTarget rest rhs ∧ (s.solve g o).outcome = .ok x ∧
        h.Converged rest rhs
        (max s.params.absoluteTolerance (s.params.relativeTolerance * rhs.norm)) x := by
  have hg := perm_of_split hsplit
  obtain ⟨hc, hkeys⟩ := GaussianGraph.dims_of_ok hdims
  obtain ⟨dims', xbar, h, hk⟩ := exists_eliminated hg ho hnet
  -- the subgraph has all variables, with the widths they have in the whole problem
  obtain rfl : dims' = dims := by
    have htree : Consistent dims tree.factors :=
      fun f hf => hc f (hg.mem_iff.mpr (List.mem_append_left _ hf))
    refine h.consistent.dims_eq htree (fun k => by rw [hk, hkeys]) fun k hmem => ?_
    rw [h.dims_keys] at hmem
    exact GaussianGraph.mem_keys_keys.mp hmem
  have hr : Consistent dims' rest.factors :=
    fun f hf => hc f (hg.mem_iff.mpr (List.mem_append_right _ hf))
  obtain ⟨rhs, hrhs⟩ := h.exists_isTarget hr
  obtain ⟨x, hx, hconv⟩ :=
    (h.exists_solve hr hrhs rfl (le_max_of_le_left habs) hsplit hnet).resolve_right
    fun hno => absurd hcap (not_le.mpr hno.1)
  exact ⟨xbar, h, rhs, x, hr, hrhs, hx, hconv⟩

/-- **Conjugate gradients end within as many steps as there are columns**, and find the solution if
no residual is tolerated: for a problem as long as the mask whose subgraph is eliminated in an order
of the variables, the solver answers if it may take as many steps as the variables have columns. All
states of its iteration that take another step have a residual that is not zero and a direction of
positive curvature, so all divisions are by positive numbers. With zero tolerances no vector has a
smaller error, one with blocks of the right sizes and the same error is the answer, and a direct
method in any order that answers has the same answer. -/
theorem solve_converges {s : SubgraphSolver ℝ} {g : GaussianGraph ℝ} {o : EliminationOrder}
    {dims : KeyMap ℕ} (hdims : g.dims.outcome = .ok dims) (hmask : s.mask.length ≤ g.size)
    (ho : o.keys.Perm g.keys.keys) (habs : 0 ≤ s.params.absoluteTolerance)
    (hcap : dims.total id ≤ s.params.maxIterations) :
    ∃ tree rest, (s.split g).outcome = .ok (tree, rest) ∧
      ∀ net, (tree.eliminate o).outcome = .ok net → ∃ x xbar rhs, (s.solve g o).outcome = .ok x ∧
        x.widths = dims ∧ net.optimize.outcome = .ok xbar ∧
        (rightHandSide net rest xbar).outcome = .ok rhs ∧
        (∀ threshold t, threshold =
          max s.params.absoluteTolerance (s.params.relativeTolerance * rhs.norm) →
          Iterate.Reached (apply net rest) threshold (Iterate.start rhs) t → threshold < t.norm →
            0 < t.residualSq ∧ ∃ image, (apply net rest t.direction).outcome = .ok image ∧
              0 < t.direction.dot image) ∧
        (s.params.absoluteTolerance = 0 → s.params.relativeTolerance = 0 →
          (∀ x', (∀ k ∈ g.keys.keys, x'.widths.get? k = dims.get? k) →
            g.error x ≤ g.error x' ∧
            (g.error x' = g.error x → ∀ k ∈ g.keys.keys, x'.get? k = x.get? k)) ∧
          (∀ x', x'.widths = dims → g.error x' = g.error x → x' = x) ∧
          ∀ m o' x', o'.keys.Perm g.keys.keys → (DirectMethod.solve m g o').outcome = .ok x' →
            x' = x) := by
  obtain ⟨tree, rest, hsplit⟩ := exists_split hmask
  refine ⟨tree, rest, hsplit, fun net hnet => ?_⟩
  obtain ⟨xbar, h, rhs, x, hr, hrhs, hx, hconv⟩ := exists_converged hdims ho hsplit hnet habs hcap
  refine ⟨x, xbar, rhs, hx, hconv.widths, h.optimize, hrhs.outcome,
    fun threshold t hthreshold hreach hlt => ?_, fun habs0 hrel0 => ?_⟩
  · have ht : 0 ≤ threshold := by
      rw [hthreshold]
      exact le_max_of_le_left habs
    have hT := isPositiveDefinite_normalOperator (h.products rest)
    obtain ⟨K, hK⟩ := hreach.exists_holds (h.computes_apply hr) hT ht (h.holds_start hrhs)
    obtain ⟨hsq, image, himage, hcurv, -, -⟩ :=
      hK.exists_step (h.computes_apply hr) hT (hK.residual_ne_zero ht hlt)
    exact ⟨hsq, image, himage, hcurv⟩
  · obtain ⟨y, hxy, hnorm⟩ := hconv.exists_residual
    rw [habs0, hrel0, zero_mul, max_self] at hnorm
    have hmin :=
      h.isMinimizer hr (perm_of_split hsplit) hconv.widths hxy (norm_le_zero_iff.mp hnorm)
    refine ⟨fun x' hw' => ⟨hmin.error_le x', fun he k hk => hmin.get?_eq he (hw' k hk)⟩,
      fun x' hw' he => ?_, fun m o' x' ho' hx' => ?_⟩
    · exact KeyMap.ext fun k => hmin.get?_eq he (by rw [hw'])
    · exact NormalEquations.eq_of_isMinimizer hdims ho' hmin hx'

/-- **The residual of conjugate gradients is the gradient of the whole problem.** If the solver
answers `x` in an order of the variables and does not accept an answer above the threshold, the
vector `z = R₁⁻ᵀ Aᵀ (b - A x)` of the whole problem is at most as long as the tolerances allow
against the same vector at the solution `x̄` of the subgraph. That vector is where the iteration
starts, and the residual of each of its states is the same vector at the state's solution. -/
theorem norm_gradient_le {s : SubgraphSolver ℝ} {g : GaussianGraph ℝ} {o : EliminationOrder}
    {x : BlockVector ℝ} (habs : 0 ≤ s.params.absoluteTolerance)
    (haccept : s.params.acceptUnconverged = false) (ho : o.keys.Perm g.keys.keys)
    (hx : (s.solve g o).outcome = .ok x) :
    ∃ tree rest net xbar z zbar, (s.split g).outcome = .ok (tree, rest) ∧
      (tree.eliminate o).outcome = .ok net ∧ net.optimize.outcome = .ok xbar ∧
      (rightHandSide net g x).outcome = .ok z ∧ IsGradient net g x z ∧
      (rightHandSide net g xbar).outcome = .ok zbar ∧ IsGradient net g xbar zbar ∧
      z.norm ≤ max s.params.absoluteTolerance (s.params.relativeTolerance * zbar.norm) ∧
      (rightHandSide net rest xbar).outcome = .ok zbar ∧
      (∃ t, Iterate.Reached (apply net rest)
        (max s.params.absoluteTolerance (s.params.relativeTolerance * zbar.norm))
        (Iterate.start zbar) t ∧
          (combine net xbar t.solution).outcome = .ok x ∧ t.residual = z) ∧
      ∀ t, Iterate.Reached (apply net rest)
        (max s.params.absoluteTolerance (s.params.relativeTolerance * zbar.norm))
        (Iterate.start zbar) t →
          ∃ y, (combine net xbar t.solution).outcome = .ok y ∧
            (rightHandSide net g y).outcome = .ok t.residual ∧ IsGradient net g y t.residual := by
  have hsolve := hx
  unfold solve at hx
  obtain ⟨⟨tree, rest⟩, hsplit, hx⟩ := Logged.outcome_bind_eq_ok.mp hx
  obtain ⟨net, hnet, hx⟩ := Logged.outcome_bind_eq_ok.mp hx
  obtain ⟨xbar, hxbar, hx⟩ := Logged.outcome_bind_eq_ok.mp hx
  have hg := perm_of_split hsplit
  obtain ⟨dims, xbar', h, hk⟩ := exists_eliminated hg ho hnet
  obtain rfl : xbar' = xbar := Except.ok.inj (h.optimize.symm.trans hxbar)
  have hr : Consistent dims rest.factors := consistent_of_answer h.widths (fun f hf k hkf =>
    (hk k).mpr (GaussianGraph.mem_keys_keys.mpr
      ⟨f, hg.mem_iff.mpr (List.mem_append_right _ hf), hkf⟩)) hx
  obtain ⟨rhs, hrhs⟩ := h.exists_isTarget hr
  have ht : 0 ≤ max s.params.absoluteTolerance (s.params.relativeTolerance * rhs.norm) :=
    le_max_of_le_left habs
  obtain ⟨x', hx', hconv⟩ := (h.exists_solve hr hrhs rfl ht hsplit hnet).resolve_right
    fun hno => hno.2 haccept x hsolve
  obtain rfl : x' = x := Except.ok.inj (hx'.symm.trans hsolve)
  obtain ⟨t, K, hreach, hholds, hxt, hnorm⟩ := hconv.exists_state
  obtain ⟨y, hy, hz, hzg⟩ := h.exists_gradient_of_holds hr hg hholds
  obtain rfl : y = x' := Except.ok.inj (hy.symm.trans hxt)
  obtain ⟨zbar, hzbar, hzbarw, hzbarg, hzbarv⟩ := h.exists_gradient hr hg h.widths (y := 0) (by
    rw [map_zero, add_zero])
  obtain rfl : zbar = rhs := BlockVector.eq_of_toSpace_eq hzbarw hrhs.widths (by
    rw [hzbarv, hrhs.eq_target, map_zero, sub_zero])
  refine ⟨tree, rest, net, xbar', t.residual, zbar, hsplit, hnet, h.optimize, hz, hzg,
    hzbar, hzbarg, ?_, hrhs.outcome, ⟨t, hreach, hxt, rfl⟩, fun t' hreach' => ?_⟩
  · rwa [BlockVector.norm_eq_norm hholds.residual, ← hholds.norm_eq]
  · obtain ⟨K', hK'⟩ := hreach'.exists_holds (h.computes_apply hr)
      (isPositiveDefinite_normalOperator (h.products rest)) ht (h.holds_start hrhs)
    exact h.exists_gradient_of_holds hr hg hK'

end SubgraphSolver

/-! ### Three equations -/

namespace TwoEquations

noncomputable def third : GaussianFactor ℝ where
  terms := [(firstKey, entry 1)]
  rhs := ⟨[1]⟩
  height_eq := by simp [entry, Mat.ofRows, Mat.height]
  nodup := by decide

/-- The two equations with a third one, `x₁ = 1`, that does not go with them. -/
noncomputable def loop : GaussianGraph ℝ := ⟨[first, second, third]⟩

/-- The solver with the two equations as the subgraph, two steps and a relative tolerance. -/
def solver (tolerance : ℝ) : SubgraphSolver ℝ := ⟨[true, true, false], ⟨2, tolerance, 0, false⟩⟩

theorem split_loop (tolerance : ℝ) :
    ((solver tolerance).split loop).outcome = .ok (problem, ⟨[third]⟩) :=
  rfl

/-- Without tolerance the three equations are solved exactly. -/
theorem solve_loop : ∃ x, ((solver 0).solve loop order).outcome = .ok x ∧ x.widths = dims ∧
    (∀ x', x'.widths = dims → loop.error x ≤ loop.error x') ∧
      ∀ x', x'.widths = dims → loop.error x' = loop.error x → x' = x := by
  have hdims : loop.dims.outcome = .ok dims := rfl
  obtain ⟨tree, rest, hsplit, h⟩ := SubgraphSolver.solve_converges (s := solver 0) hdims le_rfl
    (List.Perm.refl order.keys) le_rfl le_rfl
  cases (split_loop 0).symm.trans hsplit
  obtain ⟨x, -, -, hx, hw, -, -, -, hzero⟩ := h net eliminate_problem
  obtain ⟨hle, huniq, -⟩ := hzero rfl rfl
  exact ⟨x, hx, hw, fun x' hx' => (hle x' fun k _ => by rw [hx']).1, huniq⟩

/-- With a tolerance of one half the gradient of the three equations is at most half as long as at
the start. -/
theorem norm_gradient_loop : ∃ x xbar z zbar, ((solver 2⁻¹).solve loop order).outcome = .ok x ∧
    net.optimize.outcome = .ok xbar ∧ (SubgraphSolver.rightHandSide net loop x).outcome = .ok z ∧
      (SubgraphSolver.rightHandSide net loop xbar).outcome = .ok zbar ∧
        z.norm ≤ max 0 (2⁻¹ * zbar.norm) := by
  have hdims : loop.dims.outcome = .ok dims := rfl
  obtain ⟨-, -, -, x, -, -, hx, -⟩ :=
    SubgraphSolver.exists_converged hdims (List.Perm.refl order.keys)
    (split_loop 2⁻¹) eliminate_problem le_rfl le_rfl
  obtain ⟨tree, rest, net', xbar, z, zbar, hsplit, hnet, hxbar, hz, -, hzbar, -, hle, -⟩ :=
    SubgraphSolver.norm_gradient_le (s := solver 2⁻¹) le_rfl rfl (List.Perm.refl order.keys) hx
  cases (split_loop 2⁻¹).symm.trans hsplit
  cases eliminate_problem.symm.trans hnet
  exact ⟨x, xbar, z, zbar, hx, hxbar, hz, hzbar, hle⟩

end TwoEquations

end Smoothing
