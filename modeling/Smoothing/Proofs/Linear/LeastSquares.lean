import Mathlib
import Smoothing.Proofs.Linear.Degenerate

/-!
# The least squares solution

A step of the elimination keeps the squares of the residuals of its factors, up to a number that is
not negative (**`Elimination.eliminateOne_keeps_residuals`**).

A problem has at most one solution with a block of the right size for exactly its variables at which
the sum of the squares is least and which no other point shares (`GaussianGraph.IsMinimizer`).
Solving the Bayes net of a problem finds it (`GaussianGraph.isMinimizer_optimize`), whatever the
order of elimination. Main statement: `GaussianGraph.optimize_minimizes_error`. A problem without
factors that have no variables is solved, or a variable is not determined
(`GaussianGraph.optimize_total`).
-/

open Finset

namespace Smoothing

/-- **A step of the elimination keeps the squares of the residuals**, at every vector: those of the
factors are the square of the conditional, that of the remainder and a number that does not depend
on the vector. The conditional has a regular triangular block, its parents are the other variables
of the factors, and the remainder has the same variables. -/
theorem Elimination.eliminateOne_keeps_residuals {k : Key} {dim : ℕ} {fs : List (GaussianFactor ℝ)}
    {dims : KeyMap ℕ} {o : EliminationOrder} {c : Conditional ℝ}
    {remainder : Option (GaussianFactor ℝ)} (hc : Consistent dims fs) (hk : dims.get? k = some dim)
    (h : (eliminateOne k dim fs dims o).outcome = .ok (c, remainder)) :
    (∃ e, 0 ≤ e ∧ ∀ x : BlockVector ℝ, (fs.map fun f => (f.residual x).normSq).sum =
      c.sq x.coord + (remainder.toList.map fun f => (f.residual x).normSq).sum + e) ∧
    c.key = k ∧ c.dim = dim ∧ Mat.IsRegularUpper dim c.r ∧
    (∀ t ∈ c.parents, t.2.height = dim ∧ dims.get? t.1 = some t.2.cols) ∧
    (∀ j, j ∈ c.parentKeys ↔ j ≠ k ∧ ∃ f ∈ fs, j ∈ f.keys) ∧
    ∀ f, remainder = some f → f.keys = c.parentKeys := by
  have hwf := wellFormed_of_eliminateOne hk h
  obtain ⟨hkey, hparents, hremainder⟩ := keys_of_eliminateOne h
  obtain ⟨e, he0, he⟩ := exists_sq_of_eliminateOne hk h hc
  have hdim : c.dim = dim := by
    have hck := hwf.dim
    rw [hkey, hk] at hck
    exact (Option.some.inj hck).symm
  have hsq (fs : List (GaussianFactor ℝ)) (x : BlockVector ℝ) :
      (fs.map fun f => (f.residual x).normSq).sum = factorsSq fs x.coord := by
    simp only [GaussianFactor.normSq_residual, factorsSq]
  refine ⟨⟨e, he0, fun x => ?_⟩, hkey, hdim, hdim ▸ hwf.regular, fun t ht => ?_, fun j => ?_,
    fun f hf => ?_⟩
  · rw [hsq, hsq]
    exact he x.coord
  · exact ⟨hdim ▸ hwf.height t ht, hwf.cols t ht⟩
  · rw [hparents]
    exact mem_separator
  · rw [hparents]
    exact (hremainder f (by rw [hf]; exact List.mem_singleton_self f)).1

theorem BlockTriangular.exists_optimize {dims : KeyMap ℕ} {net : BayesNet ℝ}
    (h : BlockTriangular dims net.conditionals)
    (hk : ∀ k, k ∈ net.conditionals.map Conditional.key ↔ k ∈ dims.keys) :
    ∃ x, net.optimize.outcome = .ok x ∧ x.widths = dims ∧
      conditionalsSq net.conditionals x.coord = 0 := by
  obtain ⟨x, hx, hw, hv⟩ := BayesNet.exists_solveBackwards h Conditional.d fun _ _ => rfl
  exact ⟨x, hx, widths_eq_of_keys hk hw, conditionalsSq_eq_zero hv⟩

namespace GaussianGraph

/-- The only point with blocks of the given sizes at which the sum of the squares is least. -/
structure IsMinimizer (g : GaussianGraph ℝ) (dims : KeyMap ℕ) (x : BlockVector ℝ) : Prop where
  widths : x.widths = dims
  le : ∀ p, factorsSq g.factors x.coord ≤ factorsSq g.factors p
  unique : ∀ p, factorsSq g.factors p = factorsSq g.factors x.coord →
    ∀ k w, dims.get? k = some w → ∀ i < w, p k i = x.coord k i

namespace IsMinimizer

variable {g : GaussianGraph ℝ} {dims : KeyMap ℕ} {x : BlockVector ℝ} (hx : g.IsMinimizer dims x)
include hx

theorem error_le (x' : BlockVector ℝ) : g.error x ≤ g.error x' := by
  rw [g.error_eq, g.error_eq]
  have := hx.le x'.coord
  linarith

theorem get?_eq {x' : BlockVector ℝ} (he : g.error x' = g.error x) {k : Key}
    (hk : x'.widths.get? k = dims.get? k) : x'.get? k = x.get? k := by
  have hsq : factorsSq g.factors x'.coord = factorsSq g.factors x.coord := by
    rw [g.error_eq, g.error_eq] at he
    linarith
  rcases hd : dims.get? k with _ | w
  · have hxk : x.widths.get? k = none := by rw [hx.widths, hd]
    rw [hd, BlockVector.get?_widths, Option.map_eq_none_iff] at hk
    rw [BlockVector.get?_widths, Option.map_eq_none_iff] at hxk
    rw [hk, hxk]
  · obtain ⟨v', hv', hs'⟩ := BlockVector.exists_of_get?_widths (hk.trans hd)
    obtain ⟨v, hv, hs⟩ := BlockVector.exists_of_get?_widths (x := x) (by rw [hx.widths, hd])
    rw [hv, hv']
    congr 1
    refine Vec.ext_get (by rw [hs, hs']) fun i hi => ?_
    rw [← BlockVector.coord_of_get? hv, ← BlockVector.coord_of_get? hv']
    exact hx.unique _ hsq k w hd i (by rwa [← hs'])

/-- **There is one solution only.** -/
theorem eq {x' : BlockVector ℝ} (hx' : g.IsMinimizer dims x') : x' = x := by
  have he : g.error x' = g.error x := le_antisymm (hx'.error_le x) (hx.error_le x')
  exact KeyMap.ext fun k => hx.get?_eq he (by rw [hx'.widths])

end IsMinimizer

/-- **The Bayes net of a problem is solved at its solution.** -/
theorem isMinimizer_optimize {g : GaussianGraph ℝ} {o : EliminationOrder} {net : BayesNet ℝ}
    (ho : o.keys.Perm g.keys.keys) (h : (g.eliminate o).outcome = .ok net) :
    ∃ dims x, g.dims.outcome = .ok dims ∧ net.optimize.outcome = .ok x ∧ g.IsMinimizer dims x := by
  obtain ⟨dims, hdims, hkeys, htri, e, he⟩ := eliminate_spec (fun k hk => ho.mem_iff.mpr hk) h
  have hmem : ∀ k, k ∈ net.conditionals.map Conditional.key ↔ k ∈ dims.keys := fun k => by
    rw [hkeys, (dims_of_ok hdims).2, ho.mem_iff]
  obtain ⟨x, hx, hw, hzero⟩ := htri.exists_optimize hmem
  refine ⟨dims, x, hdims, hx, hw, fun p => ?_, fun p hp k w hk i hi => ?_⟩
  · rw [he, he, hzero]
    have := zero_le_conditionalsSq net.conditionals p
    linarith
  · -- at `p` all conditionals hold, as they do at `x`, and a regular system has one solution
    have hpz : conditionalsSq net.conditionals p = 0 := by
      rw [he, he, hzero] at hp
      linarith
    obtain ⟨c, hc, rfl⟩ := List.mem_map.mp ((hmem k).mpr (KeyMap.mem_keys_iff_exists.mpr ⟨w, hk⟩))
    have hcw : c.dim = w := Option.some.inj ((htri.wellFormed c hc).dim.symm.trans hk)
    refine htri.eq_of_value_eq (fun c' hc' j hj => ?_) c hc i (by rwa [hcw])
    rw [value_eq_of_conditionalsSq_eq_zero hpz c' hc' j hj,
      value_eq_of_conditionalsSq_eq_zero hzero c' hc' j hj]

/-- **Elimination finds the solution**: if a problem is eliminated in an order of its variables, the
net is solved at a vector with exactly one block of the right size for every variable. No vector has
a smaller error, and one with blocks of the right sizes and the same error is the solution. Every
other order that succeeds leads to the same vector. -/
theorem optimize_minimizes_error {g : GaussianGraph ℝ} {o : EliminationOrder} {net : BayesNet ℝ}
    (ho : o.keys.Perm g.keys.keys) (h : (g.eliminate o).outcome = .ok net) :
    ∃ dims x, g.dims.outcome = .ok dims ∧ net.optimize.outcome = .ok x ∧
      x.keys = g.keys.keys ∧ x.widths = dims ∧
      (∀ x', (∀ k ∈ g.keys.keys, x'.widths.get? k = dims.get? k) →
        g.error x ≤ g.error x' ∧
          (g.error x' = g.error x → ∀ k ∈ g.keys.keys, x'.get? k = x.get? k)) ∧
      (∀ x', x'.widths = dims → g.error x' = g.error x → x' = x) ∧
      ∀ o' net', o'.keys.Perm g.keys.keys → (g.eliminate o').outcome = .ok net' →
        net'.optimize.outcome = .ok x := by
  obtain ⟨dims, x, hdims, hx, hmin⟩ := isMinimizer_optimize ho h
  refine ⟨dims, x, hdims, hx, ?_, hmin.widths, fun x' hw => ⟨hmin.error_le x', fun he k hk => ?_⟩,
    fun x' hw he => ?_, fun o' net' ho' h' => ?_⟩
  · rw [← BlockVector.keys_widths, hmin.widths, (dims_of_ok hdims).2]
  · exact hmin.get?_eq he (hw k hk)
  · exact KeyMap.ext fun k => hmin.get?_eq he (by rw [hw])
  · obtain ⟨dims', x', hdims', hx', hmin'⟩ := isMinimizer_optimize ho' h'
    obtain rfl : dims' = dims := Except.ok.inj (hdims'.symm.trans hdims)
    rw [hx', hmin.eq hmin']

/-- **A problem is solved, or a variable is not determined.** -/
theorem optimize_total {g : GaussianGraph ℝ} {o : EliminationOrder} {dims : KeyMap ℕ}
    (hdims : g.dims.outcome = .ok dims) (hne : ∀ f ∈ g.factors, f.keys ≠ [])
    (ho : o.keys.Perm g.keys.keys) : (∃ x, (g.optimize o).outcome = .ok x ∧ x.widths = dims) ∨
      ∃ k, (g.optimize o).outcome = .error (.cause (.degenerate k)) := by
  have hpool : ∀ f ∈ g.factors, ∀ j ∈ f.keys, j ∈ o.keys := fun f hf j hj =>
    ho.mem_iff.mpr (mem_keys_keys.mpr ⟨f, hf, hj⟩)
  unfold optimize
  rcases Elimination.eliminateAll_total o o.keys (dims_of_ok hdims).1
    with ⟨⟨cs, left⟩, hall⟩ | ⟨k, hall⟩
  · have hleft : left = [] := List.eq_nil_iff_forall_not_mem.mpr fun f hf => by
      obtain ⟨hmem, hnil⟩ := Elimination.of_mem_left hpool hall f hf
      exact hne f hmem hnil
    subst hleft
    have hnet : (g.eliminate o).outcome = .ok ⟨cs⟩ := eliminate_eq_ok_iff.mpr ⟨dims, hdims, hall⟩
    obtain ⟨dims', x, hdims', hx, hmin⟩ := isMinimizer_optimize ho hnet
    obtain rfl : dims' = dims := Except.ok.inj (hdims'.symm.trans hdims)
    exact .inl ⟨x, by rw [Logged.outcome_bind_ok _ hnet, hx], hmin.widths⟩
  · refine .inr ⟨k, Logged.outcome_bind_error _ ?_⟩
    unfold eliminate
    rw [Logged.outcome_bind_ok _ hdims]
    exact Logged.outcome_bind_error _ hall

end GaussianGraph

/-! ### Two equations -/

namespace TwoEquations

def firstKey : Key := ⟨'x', 1⟩

def secondKey : Key := ⟨'x', 2⟩

/-- The matrix of one entry. -/
noncomputable def entry (a : ℝ) : Mat ℝ := Mat.ofRows 1 [⟨[a]⟩]

noncomputable def first : GaussianFactor ℝ where
  terms := [(firstKey, entry 1), (secondKey, entry 1)]
  rhs := ⟨[1]⟩
  height_eq := by simp [entry, Mat.ofRows, Mat.height]
  nodup := by decide

noncomputable def second : GaussianFactor ℝ where
  terms := [(secondKey, entry 1)]
  rhs := ⟨[1]⟩
  height_eq := by simp [entry, Mat.ofRows, Mat.height]
  nodup := by decide

/-- The equations `x₁ + x₂ = 1` and `x₂ = 1`. -/
noncomputable def problem : GaussianGraph ℝ := ⟨[first, second]⟩

def order : EliminationOrder := ⟨[firstKey, secondKey], by decide⟩

def dims : KeyMap ℕ := ⟨[(firstKey, 1), (secondKey, 1)], by decide⟩

/-- The same equations as conditionals. -/
noncomputable def net : BayesNet ℝ :=
  ⟨[⟨firstKey, entry 1, [(secondKey, entry 1)], ⟨[1]⟩⟩, ⟨secondKey, entry 1, [], ⟨[1]⟩⟩]⟩

open Elimination

theorem eliminateOne_first : (eliminateOne firstKey 1 [first] dims order).outcome =
    .ok (⟨firstKey, entry 1, [(secondKey, entry 1)], ⟨[1]⟩⟩, none) := by
  have hscale : ((Mat.ofRows 3 [⟨[(1 : ℝ), 1, 1]⟩]).columns 0 2).amax = 1 := by
    change Vec.largest [|(1 : ℝ)|, |(1 : ℝ)|] = 1
    simp [Vec.largest]
  exact eliminateOne_row [(secondKey, 1)] [1, 1] rfl rfl rfl
    (hscale.symm ▸ one_pos) hscale.le rfl rfl

/-- The equation `x₁ - x₂ = 0`. -/
noncomputable def difference : GaussianFactor ℝ where
  terms := [(firstKey, entry 1), (secondKey, entry (-1))]
  rhs := ⟨[0]⟩
  height_eq := by simp [entry, Mat.ofRows, Mat.height]
  nodup := by decide

theorem stack_pair : stack [(firstKey, 1), (secondKey, 1)] [first, difference] =
    Mat.ofRows 3 [⟨[1, 1, 1]⟩, ⟨[1, -1, 0]⟩] := rfl

theorem isDetermined_pair : IsDetermined firstKey 1 [(secondKey, 1)] [first, difference] := by
  have hget : ∀ i < 2, ∀ j < 2, (Mat.ofRows 3 [⟨[1, 1, 1]⟩, ⟨[1, -1, 0]⟩] : Mat ℝ).get i j ^ 2 =
      1 := by
    intro i hi j hj
    interval_cases i <;> interval_cases j <;> simp [Mat.get, Mat.ofRows, Vec.fit, Vec.get]
  refine isDetermined_of_le (q := 2) ?_ two_pos fun i hi j hj => ?_
  · rw [stack_pair, show GaussianGraph.height ⟨[first, difference]⟩ = 2 from rfl, sum_range_succ,
      sum_range_one, hget 0 two_pos 0 two_pos, hget 1 one_lt_two 0 two_pos]
    norm_num
  · rw [stack_pair, hget i hi j hj]
    norm_num

/-- Two equations are gathered. One is kept and one is left over for the other variable. -/
theorem eliminateOne_pair_keeps_residuals : ∃ c f,
    (eliminateOne firstKey 1 [first, difference] dims order).outcome = .ok (c, some f) ∧
    c.parentKeys = [secondKey] ∧ f.keys = [secondKey] ∧
    ∃ e, 0 ≤ e ∧ ∀ x : BlockVector ℝ, (first.residual x).normSq + (difference.residual x).normSq =
      c.sq x.coord + (f.residual x).normSq + e := by
  have hconsistent : Consistent dims [first, difference] := by
    intro f hf t ht
    rcases List.mem_pair.mp hf with rfl | rfl
    · rcases List.mem_pair.mp ht with rfl | rfl <;> rfl
    · rcases List.mem_pair.mp ht with rfl | rfl <;> rfl
  have hothers :
      (widths dims (separator order firstKey [first, difference]) : LinearRun ℝ Layout).outcome =
      .ok [(secondKey, 1)] := rfl
  obtain ⟨c, f, hone⟩ := exists_eliminateOne_some hothers isDetermined_pair
    (show 1 < 2 by decide) (show 1 ≠ 0 by decide)
  obtain ⟨⟨e, he0, he⟩, -, -, -, -, hparents, hremainder⟩ :=
    eliminateOne_keeps_residuals hconsistent rfl hone
  have hkeys := (keys_of_eliminateOne hone).2.1
  refine ⟨c, f, hone, hkeys, (hremainder f rfl).trans hkeys, e, he0, fun x => ?_⟩
  simpa using he x

theorem eliminateOne_second : (eliminateOne secondKey 1 [second] dims order).outcome =
    .ok (⟨secondKey, entry 1, [], ⟨[1]⟩⟩, none) := by
  have hscale : ((Mat.ofRows 2 [⟨[(1 : ℝ), 1]⟩]).columns 0 1).amax = 1 := by
    change Vec.largest [|(1 : ℝ)|] = 1
    simp [Vec.largest]
  exact eliminateOne_row [] [1] rfl rfl rfl
    (hscale.symm ▸ one_pos) hscale.le rfl rfl

theorem eliminate_problem : (problem.eliminate order).outcome = .ok net := by
  have hdims : problem.dims.outcome = .ok dims := rfl
  have hsecond : (eliminateAll dims order [secondKey] [second]).outcome =
      .ok ([⟨secondKey, entry 1, [], ⟨[1]⟩⟩], []) := by
    change (eliminateOne secondKey 1 [second] dims order >>= _).outcome = _
    rw [Logged.outcome_bind_ok _ eliminateOne_second]
    rfl
  have hall : (eliminateAll dims order order.keys problem.factors).outcome =
      .ok (net.conditionals, []) := by
    change (eliminateOne firstKey 1 [first] dims order >>= _).outcome = _
    rw [Logged.outcome_bind_ok _ eliminateOne_first]
    change (eliminateAll dims order [secondKey] [second] >>= _).outcome = _
    rw [Logged.outcome_bind_ok _ hsecond]
    rfl
  exact GaussianGraph.eliminate_eq_ok_iff.mpr ⟨dims, hdims, hall⟩

/-- The two equations have exactly one solution. -/
theorem optimize_problem : ∃ x, net.optimize.outcome = .ok x ∧ x.widths = dims ∧
    (∀ x', x'.widths = dims → problem.error x ≤ problem.error x') ∧
      ∀ x', x'.widths = dims → problem.error x' = problem.error x → x' = x := by
  obtain ⟨dims', x, hdims, hx, -, hw, hle, huniq, -⟩ :=
    GaussianGraph.optimize_minimizes_error (List.Perm.refl _) eliminate_problem
  obtain rfl : dims = dims' := Except.ok.inj hdims
  exact ⟨x, hx, hw, fun x' hx' => (hle x' fun k _ => by rw [hx']).1, huniq⟩

end TwoEquations

end Smoothing
