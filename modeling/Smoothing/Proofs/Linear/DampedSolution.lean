import Mathlib
import Smoothing.Proofs.Linear.Coverage
import Smoothing.Proofs.Linear.Damping
import Smoothing.Proofs.Linear.Degenerate

/-!
# Solutions of damped problems

The terms that damping adds have the squares of the coordinates, so a damped problem has the error
of the problem and half the damping times the squared length of the vector
(`GaussianGraph.error_damped`).

A solution of a damped problem has no larger damped error than a solution of the problem with
another damping. Both comparisons together say that the one with the larger damping is no longer,
and then the first one says that its error is no smaller (`le_of_minimal`). And it is compared with
the vector zero, which is damped without cost.

Main statement: **`GaussianGraph.damping_shortens`**.
-/

open Finset

namespace Smoothing

theorem le_of_minimal {l₁ l₂ e₁ e₂ n₁ n₂ : ℝ} (hl₁ : 0 ≤ l₁) (hl : l₁ < l₂)
    (h₁ : e₁ + l₁ / 2 * n₁ ≤ e₂ + l₁ / 2 * n₂) (h₂ : e₂ + l₂ / 2 * n₂ ≤ e₁ + l₂ / 2 * n₁) :
    n₂ ≤ n₁ ∧ e₁ ≤ e₂ := by
  have hsum : (l₂ - l₁) * n₂ ≤ (l₂ - l₁) * n₁ := by linarith
  have hn : n₂ ≤ n₁ := le_of_mul_le_mul_left hsum (sub_pos.mpr hl)
  have hdamping : l₁ / 2 * n₂ ≤ l₁ / 2 * n₁ := mul_le_mul_of_nonneg_left hn (by linarith)
  exact ⟨hn, by linarith⟩

/-! ### Damping terms -/

namespace GaussianFactor

theorem value_damping (k : Key) {w : ℕ} (lambda : ℝ) (p : Key → ℕ → ℝ) {i : ℕ} (hi : i < w) :
    (damping k w lambda).value p i = Real.sqrt lambda * p k i := by
  have hget : ∀ j, ((Mat.identity w).scale (Real.sqrt lambda)).get i j =
      (Mat.identity w : Mat ℝ).get i j * Real.sqrt lambda := fun j =>
    Mat.get_map (f := (· * Real.sqrt lambda)) (zero_mul _) _ i j
  have hrow : ∑ j ∈ range w, (Mat.identity w : Mat ℝ).get i j * p k j = p k i :=
    Mat.sum_get_identity fun h => absurd hi (not_lt.mpr h)
  change rowValue [(k, (Mat.identity w).scale (Real.sqrt lambda))] p i = _
  rw [rowValue_cons, rowValue_nil, add_zero, ← hrow, mul_sum]
  refine sum_congr rfl fun j _ => ?_
  rw [hget]
  ring

theorem sq_damping (k : Key) (w : ℕ) {lambda : ℝ} (hlambda : 0 ≤ lambda) (p : Key → ℕ → ℝ) :
    (damping k w lambda).sq p = lambda * ∑ i ∈ range w, p k i ^ 2 := by
  have hheight : (damping k w lambda).height = w := by simp [height, damping, Vec.zero]
  rw [sq, hheight, mul_sum]
  refine sum_congr rfl fun i hi => ?_
  have hrhs : (damping k w lambda).rhs.get i = 0 := Vec.get_zero w i
  rw [value_damping k lambda p (mem_range.mp hi), hrhs, sub_zero, mul_pow, Real.sq_sqrt hlambda]

end GaussianFactor

namespace BlockVector

theorem sum_normSq_blocks (x : BlockVector ℝ) :
    (x.keys.map fun k => (x.blockOr k 0).normSq).sum = x.normSq := by
  rw [normSq, Scalar.sum_real, KeyMap.keys, KeyMap.values, List.map_map, List.map_map]
  congr 1
  refine List.map_congr_left fun e he => ?_
  have hget : x.get? e.1 = some e.2 := KeyMap.get?_eq_some_iff.mpr he
  simp only [Function.comp, blockOr, hget, Option.getD_some]

theorem normSq_nonneg (x : BlockVector ℝ) : 0 ≤ x.normSq := by
  rw [normSq, Scalar.sum_real]
  exact List.sum_nonneg (List.forall_mem_map.mpr fun v _ => v.normSq_nonneg)

theorem widths_zeros (dims : KeyMap ℕ) :
    widths (dims.map fun _ w => (Vec.zero w : Vec ℝ)) = dims := by
  refine KeyMap.ext fun k => ?_
  rw [get?_widths, KeyMap.get?_map, Option.map_map]
  cases dims.get? k <;> simp

theorem normSq_zeros (dims : KeyMap ℕ) : normSq (dims.map fun _ w => (Vec.zero w : Vec ℝ)) = 0 := by
  rw [normSq, Scalar.sum_real]
  refine List.sum_eq_zero (List.forall_mem_map.mpr fun v hv => ?_)
  obtain ⟨e, he, rfl⟩ := List.mem_map.mp hv
  obtain ⟨e', -, rfl⟩ := List.mem_map.mp he
  rw [Vec.normSq_eq_sum _ le_rfl]
  exact sum_eq_zero fun i _ => by simp

end BlockVector

namespace GaussianGraph

theorem factorsSq_dampingTerms (dims : KeyMap ℕ) {lambda : ℝ} (hlambda : 0 ≤ lambda)
    (p : Key → ℕ → ℝ) :
    factorsSq (dampingTerms dims lambda) p =
      lambda * (dims.entries.map fun e => ∑ i ∈ range e.2, p e.1 i ^ 2).sum := by
  rw [factorsSq, dampingTerms, List.map_map, ← List.sum_map_mul_left]
  congr 1
  exact List.map_congr_left fun e _ => GaussianFactor.sq_damping e.1 e.2 hlambda p

variable {g : GaussianGraph ℝ} {dims : KeyMap ℕ}

/-- **The error of a damped problem** is the error and half the damping times the squared norms of
the blocks. -/
theorem error_damped {lambda : ℝ} (hlambda : 0 ≤ lambda) {x : BlockVector ℝ}
    (hx : ∀ k ∈ dims.keys, x.widths.get? k = dims.get? k) :
    error ⟨g.factors ++ dampingTerms dims lambda⟩ x =
      g.error x + lambda / 2 * (dims.keys.map fun k => (x.blockOr k 0).normSq).sum := by
  have hblocks : (dims.entries.map fun e => ∑ i ∈ range e.2, x.coord e.1 i ^ 2).sum =
      (dims.keys.map fun k => (x.blockOr k 0).normSq).sum := by
    rw [KeyMap.keys, List.map_map]
    congr 1
    refine List.map_congr_left fun e he => ?_
    have hw : dims.get? e.1 = some e.2 := KeyMap.get?_eq_some_iff.mpr he
    obtain ⟨v, hv, hs⟩ := BlockVector.exists_of_get?_widths
      ((hx e.1 (KeyMap.mem_keys_iff_exists.mpr ⟨_, hw⟩)).trans hw)
    simp only [Function.comp, BlockVector.blockOr, hv, Option.getD_some]
    rw [Vec.normSq_eq_sum v hs.le]
    exact sum_congr rfl fun i _ => by rw [BlockVector.coord_of_get? hv]
  rw [error_eq, error_eq, factorsSq_append, factorsSq_dampingTerms dims hlambda, hblocks]
  ring

/-- The vector zero is as good as no vector at all. -/
theorem error_zeros :
    g.error (dims.map fun _ w => Vec.zero w) = g.error KeyMap.empty := by
  have hcoord : BlockVector.coord (dims.map fun _ w => (Vec.zero w : Vec ℝ)) =
      BlockVector.coord KeyMap.empty := by
    funext k i
    rw [BlockVector.coord_empty, BlockVector.coord, KeyMap.get?_map]
    cases dims.get? k with
    | none => exact Vec.get_nil i
    | some w => exact Vec.get_zero w i
  rw [error_eq, error_eq, hcoord]

/-! ### Solutions -/

/-- What elimination answers is the solution of the problem, in any order in which it answers. -/
theorem isMinimizer_of_optimize (hdims : g.dims.outcome = .ok dims) {o : EliminationOrder}
    {x : BlockVector ℝ} (h : (g.optimize o).outcome = .ok x) : g.IsMinimizer dims x := by
  obtain ⟨net, hnet, hx⟩ := Logged.outcome_bind_eq_ok.mp h
  obtain ⟨dims', x', hdims', hx', hmin⟩ := isMinimizer_optimize (perm_keys_of_optimize h) hnet
  obtain rfl : dims' = dims := Except.ok.inj (hdims'.symm.trans hdims)
  obtain rfl : x' = x := Except.ok.inj (hx'.symm.trans hx)
  exact hmin

variable (hdims : g.dims.outcome = .ok dims) {lambda : ℝ} (hlambda : 0 < lambda)
include hdims hlambda

/-- **The solution of a damped problem** has no larger error and damping together than any other
vector. -/
theorem exists_le_of_damped {damped : GaussianGraph ℝ}
    (hdamped : (g.damped lambda).outcome = .ok damped) {o : EliminationOrder} {x : BlockVector ℝ}
    (hx : (DirectMethod.qr.solve damped o).outcome = .ok x) :
    x.widths = dims ∧ ∀ y : BlockVector ℝ, y.widths = dims →
      g.error x + lambda / 2 * x.normSq ≤ g.error y + lambda / 2 * y.normSq := by
  obtain rfl := Except.ok.inj ((outcome_damped hdims hlambda).symm.trans hdamped)
  have hmin := isMinimizer_of_optimize (dims_damped hdims exists_of_mem_dampingTerms)
    ((Logged.outcome_report_bind _ _).symm.trans hx)
  have herror : ∀ y : BlockVector ℝ, y.widths = dims →
      error ⟨g.factors ++ dampingTerms dims lambda⟩ y = g.error y + lambda / 2 * y.normSq := by
    intro y hy
    rw [error_damped hlambda.le fun k _ => by rw [hy], ← BlockVector.sum_normSq_blocks, ← hy,
      BlockVector.keys_widths]
  refine ⟨hmin.widths, fun y hy => ?_⟩
  rw [← herror x hmin.widths, ← herror y hy]
  exact hmin.error_le y

omit hlambda in
/-- **A solution of a damped problem is not worse than zero**, whatever the damping. -/
theorem error_le_of_damped (hlambda : 0 ≤ lambda) {damped : GaussianGraph ℝ}
    (hdamped : (g.damped lambda).outcome = .ok damped) {o : EliminationOrder} {x : BlockVector ℝ}
    (hx : (DirectMethod.qr.solve damped o).outcome = .ok x) : g.error x ≤ g.error KeyMap.empty := by
  rcases hlambda.eq_or_lt with rfl | hpos
  · obtain rfl := Except.ok.inj (g.outcome_damped_zero.symm.trans hdamped)
    exact (isMinimizer_of_optimize hdims
      ((Logged.outcome_report_bind _ _).symm.trans hx)).error_le _
  · have hzero := (exists_le_of_damped hdims hpos hdamped hx).2 _ (BlockVector.widths_zeros dims)
    rw [BlockVector.normSq_zeros, mul_zero, add_zero, error_zeros] at hzero
    have hlength : 0 ≤ lambda / 2 * x.normSq :=
      mul_nonneg (by linarith) (BlockVector.normSq_nonneg x)
    linarith

omit hlambda in
/-- **More damping never lengthens the solution and never makes it worse than zero.** A damped
problem has the factors of the problem first, the same variables and widths, and the error of the
problem with half the damping times the squared norms of the blocks. If elimination solves the
problem with two dampings, then the solution with the larger one is no longer, its error in the
problem is no smaller, and that is no larger than the error at zero. -/
theorem damping_shortens :
    (∀ lambda, 0 < lambda → ∃ damped, (g.damped lambda).outcome = .ok damped ∧
      g.factors <+: damped.factors ∧ damped.keys.keys = g.keys.keys ∧
      damped.dims.outcome = .ok dims ∧
      ∀ x : BlockVector ℝ, (∀ k ∈ g.keys.keys, x.widths.get? k = dims.get? k) →
        damped.error x = g.error x +
          lambda / 2 * (g.keys.keys.map fun k => (x.blockOr k 0).normSq).sum) ∧
    ∀ l₁ l₂ g₁ g₂ o x₁ x₂, 0 < l₁ → l₁ < l₂ → (g.damped l₁).outcome = .ok g₁ →
      (g.damped l₂).outcome = .ok g₂ → (DirectMethod.qr.solve g₁ o).outcome = .ok x₁ →
      (DirectMethod.qr.solve g₂ o).outcome = .ok x₂ →
        x₂.norm ≤ x₁.norm ∧ g.error x₁ ≤ g.error x₂ ∧
          g.error x₂ ≤ g.error (dims.map fun _ w => Vec.zero w) := by
  have hkeys := (dims_of_ok hdims).2
  refine ⟨fun lambda hlambda => ?_, fun l₁ l₂ g₁ g₂ o x₁ x₂ hl₁ hl hg₁ hg₂ hx₁ hx₂ => ?_⟩
  · refine ⟨_, outcome_damped hdims hlambda, List.prefix_append _ _, ?_,
      dims_damped hdims exists_of_mem_dampingTerms, fun x hx => ?_⟩
    · exact KeyMap.keys_eq_of_mem_iff fun k => mem_keys_damped hdims exists_of_mem_dampingTerms
    · rw [← hkeys] at hx ⊢
      exact error_damped hlambda.le hx
  · obtain ⟨hw₁, hle₁⟩ := exists_le_of_damped hdims hl₁ hg₁ hx₁
    obtain ⟨hw₂, hle₂⟩ := exists_le_of_damped hdims (hl₁.trans hl) hg₂ hx₂
    obtain ⟨hn, he⟩ := le_of_minimal hl₁.le hl (hle₁ x₂ hw₂) (hle₂ x₁ hw₁)
    refine ⟨Real.sqrt_le_sqrt hn, he, ?_⟩
    -- the vector zero has no length, and that of the solution is not negative
    have hzero := hle₂ (dims.map fun _ w => Vec.zero w) (BlockVector.widths_zeros dims)
    rw [BlockVector.normSq_zeros, mul_zero, add_zero] at hzero
    have hpos : 0 ≤ l₂ / 2 * x₂.normSq := mul_nonneg (by linarith) (BlockVector.normSq_nonneg x₂)
    linarith

end GaussianGraph

/-! ### A walk

The equations `x₁ = 1` and `x₂ - x₁ = 1`, where the last variable is eliminated first. -/

namespace TwoEquations
open Elimination

noncomputable def start : GaussianFactor ℝ where
  terms := [(firstKey, Mat.identity 1)]
  rhs := ⟨[1]⟩
  height_eq := by simp [Mat.height_identity]
  nodup := by decide

noncomputable def offset : GaussianFactor ℝ where
  terms := [(firstKey, -Mat.identity 1), (secondKey, Mat.identity 1)]
  rhs := ⟨[1]⟩
  height_eq := List.forall_mem_cons.mpr ⟨(Mat.height_neg _).trans (Mat.height_identity 1),
    List.forall_mem_singleton.mpr (Mat.height_identity 1)⟩
  nodup := by decide

noncomputable def walk : GaussianGraph ℝ := ⟨[start, offset]⟩

def backwards : EliminationOrder := ⟨[secondKey, firstKey], by decide⟩

/-- The measurement with the damping of its last variable leaves a factor on the other one. -/
theorem exists_eliminateOne_offset (lambda : ℝ) : ∃ c f, (eliminateOne secondKey 1
    [offset, GaussianFactor.damping secondKey 1 lambda] dims backwards).outcome = .ok (c, some f) ∧
      f.keys = [firstKey] := by
  set s : ℝ := 1 * Real.sqrt lambda with hs
  have hothers : (widths dims (separator backwards secondKey
      [offset, GaussianFactor.damping secondKey 1 lambda]) : LinearRun ℝ Layout).outcome =
        .ok [(firstKey, 1)] := rfl
  have hstack : stack [(secondKey, 1), (firstKey, 1)] [offset,
      GaussianFactor.damping secondKey 1 lambda] = Mat.ofRows 3 [⟨[1, -1, 1]⟩, ⟨[s, 0, 0]⟩] := rfl
  have hdetermined : IsDetermined secondKey 1 [(firstKey, 1)]
      [offset, GaussianFactor.damping secondKey 1 lambda] := by
    refine isDetermined_of_le (q := 1 + s ^ 2) ?_ (by positivity) fun i hi j hj => ?_
    · rw [hstack]
      change ∑ i ∈ range 2, _ = _
      simp [sum_range_succ, Mat.get, Mat.ofRows, Vec.fit, Vec.get]
    · rw [hstack]
      change i < 2 at hi
      change j < 2 at hj
      have hsq := sq_nonneg s
      interval_cases i <;> interval_cases j <;> simp [Mat.get, Mat.ofRows, Vec.fit, Vec.get] <;>
        linarith
  obtain ⟨c, f, hone⟩ :=
    exists_eliminateOne_some hothers hdetermined (show 1 < 2 by decide) (show 1 ≠ 0 by decide)
  exact ⟨c, f, hone, ((keys_of_eliminateOne hone).2.2 f (List.mem_singleton_self f)).1⟩

/-- The first equation determines its variable, whatever else is gathered. -/
theorem exists_eliminateOne_start {fs : List (GaussianFactor ℝ)}
    (hfs : ∀ f ∈ fs, f.keys = [firstKey]) :
    ∃ c, (eliminateOne firstKey 1 (start :: fs) dims backwards).outcome = .ok (c, none) := by
  have hseparator : separator backwards firstKey (start :: fs) = [] := by
    refine List.eq_nil_iff_forall_not_mem.mpr fun j hj => ?_
    obtain ⟨hne, f, hf, hj⟩ := mem_separator.mp hj
    have hkeys : f.keys = [firstKey] := by
      rcases List.mem_cons.mp hf with rfl | hf
      · rfl
      · exact hfs f hf
    rw [hkeys] at hj
    exact hne (List.mem_singleton.mp hj)
  have hothers :
      (widths dims (separator backwards firstKey (start :: fs)) : LinearRun ℝ Layout).outcome =
      .ok [] := by
    rw [hseparator]
    rfl
  have hheight : 0 < GaussianGraph.height ⟨start :: fs⟩ := by
    show 0 < 1 + GaussianGraph.height ⟨fs⟩
    omega
  have hentry : (stack [(firstKey, 1)] (start :: fs)).get 0 0 = 1 := rfl
  obtain ⟨c, remainder, hone⟩ := exists_eliminateOne hothers
    (isDetermined_of_ne_zero hheight (by rw [hentry]; exact one_ne_zero))
  obtain rfl : remainder = none := (eq_none_iff hone hothers).mpr (.inr rfl)
  exact ⟨c, hone⟩

theorem exists_solve_damped (lambda : ℝ) :
    ∃ x, (DirectMethod.qr.solve ⟨walk.factors ++ GaussianGraph.dampingTerms dims lambda⟩
      backwards).outcome = .ok x := by
  set g : GaussianGraph ℝ := ⟨walk.factors ++ GaussianGraph.dampingTerms dims lambda⟩
  obtain ⟨c, f, hone, hkeys⟩ := exists_eliminateOne_offset lambda
  have hfs : ∀ f' ∈ [GaussianFactor.damping firstKey 1 lambda, f], f'.keys = [firstKey] := by
    intro f' hf'
    rcases List.mem_pair.mp hf' with rfl | rfl
    · rfl
    · exact hkeys
  obtain ⟨c', hlast⟩ := exists_eliminateOne_start hfs
  have hrest : (eliminateAll dims backwards [firstKey]
      [start, GaussianFactor.damping firstKey 1 lambda, f]).outcome = .ok ([c'], []) := by
    have hall : ∀ f' ∈ [start, GaussianFactor.damping firstKey 1 lambda, f],
        f'.mentions firstKey = true := by
      refine List.forall_mem_cons.mpr ⟨rfl, fun f' hf' => ?_⟩
      simp [GaussianFactor.mentions, hfs f' hf']
    have hnone : [start, GaussianFactor.damping firstKey 1 lambda,
        f].filter (fun f => !f.mentions firstKey) = [] :=
      List.filter_eq_nil_iff.mpr fun f' hf' => by simp [hall f' hf']
    have hdim : dims.get? firstKey = some 1 := rfl
    unfold eliminateAll
    simp only [List.filter_eq_self.mpr hall, hnone, hdim]
    change (eliminateOne firstKey 1 _ dims backwards >>= _).outcome = _
    rw [Logged.outcome_bind_ok _ hlast]
    rfl
  have hnet : (g.eliminate backwards).outcome = .ok ⟨[c, c']⟩ := by
    refine GaussianGraph.eliminate_eq_ok_iff.mpr ⟨dims, rfl, ?_⟩
    change (eliminateOne secondKey 1 [offset, GaussianFactor.damping secondKey 1 lambda] dims
      backwards >>= _).outcome = _
    rw [Logged.outcome_bind_ok _ hone]
    change (eliminateAll dims backwards [firstKey]
      [start, GaussianFactor.damping firstKey 1 lambda, f] >>= _).outcome = _
    rw [Logged.outcome_bind_ok _ hrest]
    rfl
  obtain ⟨-, x, -, hx, -⟩ := GaussianGraph.isMinimizer_optimize (List.Perm.swap _ _ _) hnet
  exact ⟨x, (Logged.outcome_report_bind _ _).trans
    (by rw [GaussianGraph.optimize, Logged.outcome_bind_ok _ hnet, hx])⟩

/-- Damping a walk by four and not by one does not lengthen its solution. -/
theorem damping_shortens_walk : ∃ g₁ g₂ x₁ x₂, (walk.damped 1).outcome = .ok g₁ ∧
    (walk.damped 4).outcome = .ok g₂ ∧ (DirectMethod.qr.solve g₁ backwards).outcome = .ok x₁ ∧
    (DirectMethod.qr.solve g₂ backwards).outcome = .ok x₂ ∧ x₂.norm ≤ x₁.norm ∧
      walk.error x₁ ≤ walk.error x₂ := by
  have hdims : walk.dims.outcome = .ok dims := rfl
  have hone := GaussianGraph.outcome_damped hdims (one_pos : (0 : ℝ) < 1)
  have hfour := GaussianGraph.outcome_damped hdims (four_pos : (0 : ℝ) < 4)
  obtain ⟨x₁, hx₁⟩ := exists_solve_damped 1
  obtain ⟨x₂, hx₂⟩ := exists_solve_damped 4
  obtain ⟨hn, he, -⟩ :=
    (GaussianGraph.damping_shortens hdims).2 1 4 _ _ backwards x₁ x₂ one_pos (by norm_num)
    hone hfour hx₁ hx₂
  exact ⟨_, _, x₁, x₂, hone, hfour, hx₁, hx₂, hn, he⟩

end TwoEquations

end Smoothing
