import Mathlib
import Smoothing.Linear.Subgraph
import Smoothing.Proofs.ConjugateGradients
import Smoothing.Proofs.Linear.LeastSquares
import Smoothing.Proofs.Linear.Rows

/-!
# The operator of a subgraph

A subgraph is eliminated to a Bayes net with the solution `x̄` (`Eliminated`). What the solver
computes with the net and the rest of the problem are linear maps: with `R₁` the rows of the net,
`A₂` the values of the rest and `B = A₂ R₁⁻¹` (`products`),

* `apply` is the operator `1 + BᵀB` (`exists_apply`),
* `rightHandSide` is `R₁⁻ᵀ Aᵀ (b - A x)` for any problem and point (`exists_rightHandSide`), and
* for the whole problem at `x̄ + R₁⁻¹ y` this is the residual of `y` (`exists_gradient`).
-/

open Finset
open scoped RealInnerProductSpace

namespace Smoothing

namespace SubgraphSolver

theorem exists_split {s : SubgraphSolver ℝ} {g : GaussianGraph ℝ} (h : s.mask.length ≤ g.size) :
    ∃ tree rest, (s.split g).outcome = .ok (tree, rest) := by
  rw [split, if_neg (by omega)]
  exact ⟨_, _, rfl⟩

/-- **The parts of a problem** have its factors. -/
theorem perm_of_split {s : SubgraphSolver ℝ} {g tree rest : GaussianGraph ℝ}
    (h : (s.split g).outcome = .ok (tree, rest)) :
    g.factors.Perm (tree.factors ++ rest.factors) := by
  unfold split at h
  split at h
  · exact absurd h LinearError.outcome_stop_ne_ok
  · set marked := g.factors.zipIdx.map fun a => (a.1, s.mask.getD a.2 true) with hmarked
    cases h
    rw [← List.map_append]
    have hfactors : g.factors = marked.map (·.1) := by
      rw [hmarked, List.map_map]
      exact (List.zipIdx_map_fst 0 g.factors).symm
    conv_lhs => rw [hfactors]
    exact (List.filter_append_perm (·.2) marked).symm.map _

/-- A problem that was eliminated to a Bayes net with a solution. -/
structure Eliminated (dims : KeyMap ℕ) (tree : GaussianGraph ℝ) (net : BayesNet ℝ)
    (xbar : BlockVector ℝ) : Prop where
  consistent : Consistent dims tree.factors
  dims_keys : dims.keys = tree.keys.keys
  triangular : BlockTriangular dims net.conditionals
  keys : ∀ k, k ∈ net.conditionals.map Conditional.key ↔ k ∈ dims.keys
  squares : ∃ e, ∀ p, factorsSq tree.factors p = conditionalsSq net.conditionals p + e
  optimize : net.optimize.outcome = .ok xbar
  widths : xbar.widths = dims
  solved : conditionalsSq net.conditionals xbar.coord = 0

theorem exists_eliminated {g tree rest : GaussianGraph ℝ} {o : EliminationOrder} {net : BayesNet ℝ}
    (hg : g.factors.Perm (tree.factors ++ rest.factors)) (ho : o.keys.Perm g.keys.keys)
    (h : (tree.eliminate o).outcome = .ok net) :
    ∃ dims xbar, Eliminated dims tree net xbar ∧ ∀ k, k ∈ dims.keys ↔ k ∈ g.keys.keys := by
  have hsub : ∀ k ∈ tree.keys.keys, k ∈ g.keys.keys := by
    intro k hk
    obtain ⟨f, hf, hk⟩ := GaussianGraph.mem_keys_keys.mp hk
    exact GaussianGraph.mem_keys_keys.mpr ⟨f, hg.mem_iff.mpr (List.mem_append_left _ hf), hk⟩
  obtain ⟨dims, hdims, hkeys, htri, hsq⟩ :=
    GaussianGraph.eliminate_spec (fun k hk => ho.mem_iff.mpr (hsub k hk)) h
  obtain ⟨hc, hdk⟩ := GaussianGraph.dims_of_ok hdims
  have hmem : ∀ k, k ∈ net.conditionals.map Conditional.key ↔ k ∈ dims.keys := by
    intro k
    constructor
    · intro hk
      obtain ⟨c, hc, rfl⟩ := List.mem_map.mp hk
      exact KeyMap.mem_keys_iff_exists.mpr ⟨_, (htri.wellFormed c hc).dim⟩
    · intro hk
      rw [hkeys, ho.mem_iff]
      exact hsub k (hdk ▸ hk)
  obtain ⟨xbar, hx, hw, hz⟩ := htri.exists_optimize hmem
  refine ⟨dims, xbar, ⟨hc, hdk, htri, hmem, hsq, hx, hw, hz⟩, fun k => ?_⟩
  rw [← hmem, hkeys, ho.mem_iff]

theorem fits_of_consistent {dims : KeyMap ℕ} {g : GaussianGraph ℝ} (hc : Consistent dims g.factors)
    {x : BlockVector ℝ} (hx : x.widths = dims) : g.fits x = true := by
  refine List.all_eq_true.mpr fun f hf => GaussianFactor.fits_iff.mpr fun t ht v hv => ?_
  have hw := hc f hf t ht
  rw [← hx, BlockVector.get?_widths_of_get? hv] at hw
  exact Option.some.inj hw

/-- The vector `z = R₁⁻ᵀ Aᵀ (b - A x)`, that is `R₁ᵀ z = Aᵀ (b - A x)`: it has a block for every
variable of the net, and with the values of the net at any point the inner product that the
residuals of the problem have with the values of its factors there. -/
structure IsGradient (net : BayesNet ℝ) (g : GaussianGraph ℝ) (x z : BlockVector ℝ) : Prop where
  keys : ∀ k, k ∈ z.keys ↔ k ∈ net.conditionals.map Conditional.key
  widths : ∀ c ∈ net.conditionals, z.widths.get? c.key = some c.dim
  eq : ∀ p, (net.conditionals.map fun c => ∑ i ∈ range c.dim, z.coord c.key i * c.value p i).sum =
    (g.factors.map fun f =>
      ∑ i ∈ range f.height, (f.rhs.get i - f.value x.coord i) * f.value p i).sum

namespace Eliminated

variable {dims : KeyMap ℕ} {tree : GaussianGraph ℝ} {net : BayesNet ℝ} {xbar : BlockVector ℝ}
  (h : Eliminated dims tree net xbar)
include h

/-- The rows `R₁` of the net. -/
noncomputable def rows : Space dims ≃ₗ[ℝ] Space dims := h.triangular.rows h.keys

/-- **The squares of the subgraph** are the squared distances of the rows from those of its
solution. -/
theorem norm_sq_eq : ∃ e, ∀ u, ‖valueMap dims tree.factors u - rhsRows tree.factors‖ ^ 2 =
    ‖h.rows u - h.rows (toSpace dims xbar.coord)‖ ^ 2 + e := by
  obtain ⟨e, he⟩ := h.squares
  refine ⟨e, fun u => ?_⟩
  rw [← Space.toSpace_point u, ← factorsSq_eq_norm_sq h.consistent, he,
    h.triangular.conditionalsSq_eq_norm_sq h.keys (value_eq_of_conditionalsSq_eq_zero h.solved)]
  rfl

/-- **The vector `R₁⁻ᵀ Aᵀ (b - A x)`** of any problem with blocks of the same widths. -/
theorem exists_rightHandSide {g : GaussianGraph ℝ} (hc : Consistent dims g.factors)
    {x : BlockVector ℝ} (hx : x.widths = dims) :
    ∃ z, (rightHandSide net g x).outcome = .ok z ∧ z.widths = dims ∧
      ∀ u, ⟪toSpace dims z.coord, h.rows u⟫ =
        ⟪rhsRows g.factors - valueMap dims g.factors (toSpace dims x.coord),
          valueMap dims g.factors u⟫ := by
  obtain ⟨sums, hsums, hw, hp⟩ := GaussianGraph.exists_transposeMultiply hc
    (e := fun f => f.rhs - f.multiply x) fun f _ => by
      rw [Vec.size_sub, GaussianFactor.size_multiply]
      exact min_self _
  obtain ⟨z, hz, hzw, hzp⟩ := BayesNet.exists_backsubstituteTransposed h.triangular h.keys hw
  refine ⟨z, ?_, hzw, fun u => ?_⟩
  · rw [rightHandSide, if_pos (fits_of_consistent hc hx),
      Logged.outcome_bind_ok _ (Logged.outcome_fromOption_eq_ok.mpr hsums), hz]
  · rw [rows, hzp, hp, toRows_residual hc]

theorem isGradient {g : GaussianGraph ℝ} (hc : Consistent dims g.factors) {x z : BlockVector ℝ}
    (hw : z.widths = dims) (hp : ∀ u, ⟪toSpace dims z.coord, h.rows u⟫ =
      ⟪rhsRows g.factors - valueMap dims g.factors (toSpace dims x.coord),
        valueMap dims g.factors u⟫) :
    IsGradient net g x z := by
  refine ⟨fun k => ?_, fun c hcond => ?_, fun p => ?_⟩
  · rw [h.keys, ← hw, BlockVector.keys_widths]
  · rw [hw, (h.triangular.wellFormed c hcond).dim]
  · have hz := hp (toSpace dims p)
    rw [rows, h.triangular.inner_rows h.keys, valueMap_toSpace hc, valueMap_toSpace hc] at hz
    rw [hz]
    exact inner_toRows (fun f i => f.rhs.get i - f.value x.coord i) fun f => f.value p

theorem exists_combine {y : BlockVector ℝ} (hy : y.widths = dims) :
    ∃ x, (combine net xbar y).outcome = .ok x ∧ x.widths = dims ∧
      toSpace dims x.coord = toSpace dims xbar.coord + h.rows.symm (toSpace dims y.coord) := by
  obtain ⟨x, hx, hw, hv⟩ := BayesNet.exists_backsubstitute h.triangular h.keys hy
  refine ⟨BlockVector.axpy 1 x xbar, ?_, BlockVector.widths_axpy hw h.widths 1, ?_⟩
  · rw [combine, Logged.outcome_bind_ok _ hx]
    rfl
  · rw [BlockVector.toSpace_axpy hw h.widths, one_smul, add_comm, ← hv]
    congr 1
    exact (h.rows.symm_apply_apply _).symm

/-! ### The operator -/

/-- The products `B = A₂ R₁⁻¹`. -/
noncomputable def products (rest : GaussianGraph ℝ) : Space dims →ₗ[ℝ] RowSpace rest.factors :=
  valueMap dims rest.factors ∘ₗ h.rows.symm.toLinearMap

/-- The right-hand side `Bᵀ (b₂ - A₂ x̄)`. -/
noncomputable def target (rest : GaussianGraph ℝ) : Space dims :=
  normalTarget (h.products rest)
    (rhsRows rest.factors - valueMap dims rest.factors (toSpace dims xbar.coord))

/-- The right-hand side that is computed. -/
structure IsTarget (rest : GaussianGraph ℝ) (rhs : BlockVector ℝ) : Prop where
  outcome : (rightHandSide net rest xbar).outcome = .ok rhs
  widths : rhs.widths = dims
  eq_target : toSpace dims rhs.coord = h.target rest

theorem products_rows (rest : GaussianGraph ℝ) (u : Space dims) :
    h.products rest (h.rows u) = valueMap dims rest.factors u :=
  congrArg (valueMap dims rest.factors) (h.rows.symm_apply_apply u)

variable {rest : GaussianGraph ℝ} (hr : Consistent dims rest.factors)
include hr

/-- **The operator is `1 + BᵀB`.** -/
theorem exists_apply {y : BlockVector ℝ} (hy : y.widths = dims) :
    ∃ z, (apply net rest y).outcome = .ok z ∧ z.widths = dims ∧
      toSpace dims z.coord = normalOperator (h.products rest) (toSpace dims y.coord) := by
  obtain ⟨x, hx, hw, hv⟩ := BayesNet.exists_backsubstitute h.triangular h.keys hy
  obtain ⟨sums, hsums, hsw, hp⟩ :=
    GaussianGraph.exists_transposeMultiply hr (e := fun f => f.multiply x)
    fun f _ => f.size_multiply x
  obtain ⟨z, hz, hzw, hzp⟩ := BayesNet.exists_backsubstituteTransposed h.triangular h.keys hsw
  have hproducts : rest.multiply? x = some (rest.factors.map fun f => f.multiply x) :=
    if_pos (fits_of_consistent hr hw)
  refine ⟨BlockVector.axpy 1 y z, ?_, BlockVector.widths_axpy hy hzw 1, ?_⟩
  · rw [apply, Logged.outcome_bind_ok _ hx,
      Logged.outcome_bind_ok _ (Logged.outcome_fromOption_eq_ok.mpr hproducts),
      Logged.outcome_bind_ok _ (Logged.outcome_fromOption_eq_ok.mpr hsums),
        Logged.outcome_bind_ok _ hz]
    rfl
  · have hvalues : valueMap dims rest.factors (toSpace dims x.coord) =
        h.products rest (toSpace dims y.coord) := by
      rw [← hv]
      exact (h.products_rows rest _).symm
    refine ext_inner_right ℝ fun v => ?_
    obtain ⟨u, rfl⟩ := h.rows.surjective v
    rw [BlockVector.toSpace_axpy hy hzw, one_smul, inner_normalOperator, inner_add_left,
      h.products_rows, ← hvalues, ← toRows_multiply hr, ← hp]
    congr 1
    exact hzp u

theorem exists_isTarget : ∃ rhs, h.IsTarget rest rhs := by
  obtain ⟨z, hz, hw, hp⟩ := h.exists_rightHandSide hr h.widths
  refine ⟨z, hz, hw, ext_inner_right ℝ fun v => ?_⟩
  obtain ⟨u, rfl⟩ := h.rows.surjective v
  rw [hp, target, inner_normalTarget, h.products_rows]

/-! ### The whole problem -/

section Whole
variable {g : GaussianGraph ℝ} (hg : g.factors.Perm (tree.factors ++ rest.factors))
include hg

theorem consistent_whole : Consistent dims g.factors := by
  intro f hf
  rcases List.mem_append.mp (hg.mem_iff.mp hf) with hf | hf
  · exact h.consistent f hf
  · exact hr f hf

variable {x : BlockVector ℝ} (hx : x.widths = dims) {y : Space dims}
  (hxy : toSpace dims x.coord = toSpace dims xbar.coord + h.rows.symm y)
include hxy

omit hr in
/-- At `x̄ + R₁⁻¹ y` the gradient of the whole problem is the residual of `y`. -/
theorem inner_gradient (u : Space dims) :
    ⟪rhsRows g.factors - valueMap dims g.factors (toSpace dims x.coord),
      valueMap dims g.factors u⟫ =
      ⟪h.target rest - normalOperator (h.products rest) y, h.rows u⟫ := by
  obtain ⟨e, he⟩ := h.norm_sq_eq
  rw [target, products, ← inner_add_inner_eq_residual he, ← hxy]
  exact inner_toRows_perm hg (fun f i => f.rhs.get i - f.value (toSpace dims x.coord).point i)
    fun f => f.value u.point

include hx

/-- **The residual of the operator is the vector `R₁⁻ᵀ Aᵀ (b - A x)`** of the whole problem. -/
theorem exists_gradient : ∃ z, (rightHandSide net g x).outcome = .ok z ∧ z.widths = dims ∧
    IsGradient net g x z ∧
    toSpace dims z.coord = h.target rest - normalOperator (h.products rest) y := by
  obtain ⟨z, hz, hw, hp⟩ := h.exists_rightHandSide (h.consistent_whole hr hg) hx
  refine ⟨z, hz, hw, h.isGradient (h.consistent_whole hr hg) hw hp, ext_inner_right ℝ fun v => ?_⟩
  obtain ⟨u, rfl⟩ := h.rows.surjective v
  rw [hp, h.inner_gradient hg hxy]

/-- **Where the residual vanishes the whole problem is solved.** -/
theorem isMinimizer (hy : h.target rest - normalOperator (h.products rest) y = 0) :
    g.IsMinimizer dims x := by
  have hc := h.consistent_whole hr hg
  have hsq : ∀ p, factorsSq g.factors p =
      factorsSq g.factors x.coord +
        ‖valueMap dims g.factors (toSpace dims p - toSpace dims x.coord)‖ ^ 2 := by
    intro p
    rw [factorsSq_eq_norm_sq hc, factorsSq_eq_norm_sq hc]
    refine norm_sq_eq_add_of_inner_eq_zero (fun v => ?_) _
    rw [h.inner_gradient hg hxy, hy, inner_zero_left]
  refine ⟨hx, fun p => ?_, fun p hp k w hk i hi => ?_⟩
  · rw [hsq p]
    have := sq_nonneg ‖valueMap dims g.factors (toSpace dims p - toSpace dims x.coord)‖
    linarith
  · -- the values of the subgraph do not change either, so the rows of its net do not
    set v := toSpace dims p - toSpace dims x.coord with hv
    have hzero : ‖valueMap dims g.factors v‖ ^ 2 = 0 := by
      rw [hsq p] at hp
      linarith
    obtain ⟨e, he⟩ := h.norm_sq_eq
    have htree : ‖valueMap dims tree.factors v‖ ^ 2 = ‖h.rows v‖ ^ 2 :=
      norm_sq_eq_of_norm_sq (R := h.rows.toLinearMap) he v
    have hparts : ⟪valueMap dims g.factors v, valueMap dims g.factors v⟫ =
        ⟪valueMap dims tree.factors v, valueMap dims tree.factors v⟫ +
          ⟪valueMap dims rest.factors v, valueMap dims rest.factors v⟫ :=
      inner_toRows_perm hg (fun f => f.value v.point) fun f => f.value v.point
    have hrest : 0 ≤ ⟪valueMap dims rest.factors v, valueMap dims rest.factors v⟫ :=
      real_inner_self_nonneg
    rw [real_inner_self_eq_norm_sq, real_inner_self_eq_norm_sq, hzero, htree] at hparts
    have hrows : ‖h.rows v‖ ^ 2 = 0 := le_antisymm (by linarith) (sq_nonneg _)
    have hpx : toSpace dims p = toSpace dims x.coord :=
      sub_eq_zero.mp (h.rows.map_eq_zero_iff.mp
        (norm_eq_zero.mp (pow_eq_zero_iff two_ne_zero |>.mp hrows)))
    rw [← Space.point_toSpace p hk hi, ← Space.point_toSpace x.coord hk hi, hpx]

end Whole

end Eliminated

end SubgraphSolver

end Smoothing
