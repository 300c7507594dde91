import Mathlib
import Smoothing.Linear.Solver
import Smoothing.Proofs.Linear.LeastSquares
import Smoothing.Proofs.Sparse.Cholesky

/-!
# The normal equations find the solution

A problem in the column layout of an order is one matrix: its product with a point that is laid out,
plus the residual at zero, is the stack of the residuals of the factors
(`NormalEquations.mulVec_add_residual`). So a solution of the normal equations is a point with the
least sum of squares (`NormalEquations.solve_le`), and if elimination succeeds too, there is one
such point only. Main statement: `NormalEquations.assemble_solve_spec`.
-/

open Finset

namespace Smoothing

theorem sum_sq_le_of_normalEquations {m n : ℕ} {J : ℕ → ℕ → ℝ} {r v : ℕ → ℝ}
    (h : ∀ i < n, ∑ j ∈ range n, (∑ k ∈ range m, J k i * J k j) * v j =
      -∑ k ∈ range m, r k * J k i) (x : ℕ → ℝ) :
    ∑ k ∈ range m, (∑ j ∈ range n, J k j * v j + r k) ^ 2 ≤
      ∑ k ∈ range m, (∑ j ∈ range n, J k j * x j + r k) ^ 2 := by
  set ρ : ℕ → ℝ := fun k => ∑ j ∈ range n, J k j * v j + r k with hρ
  set δ : ℕ → ℝ := fun k => ∑ i ∈ range n, J k i * (x i - v i) with hδ
  -- the residual at the solution is orthogonal to all columns
  have horth : ∀ i < n, ∑ k ∈ range m, J k i * ρ k = 0 := by
    intro i hi
    have hJv : ∑ k ∈ range m, J k i * ∑ j ∈ range n, J k j * v j =
        ∑ j ∈ range n, (∑ k ∈ range m, J k i * J k j) * v j := by
      simp only [mul_sum, sum_mul]
      rw [sum_comm]
      exact sum_congr rfl fun j _ => sum_congr rfl fun k _ => by ring
    have hr : ∑ k ∈ range m, J k i * r k = ∑ k ∈ range m, r k * J k i :=
      sum_congr rfl fun k _ => mul_comm _ _
    simp only [hρ, mul_add, sum_add_distrib]
    rw [hJv, h i hi, hr, neg_add_cancel]
  have hcross : ∑ k ∈ range m, δ k * ρ k = 0 := by
    calc ∑ k ∈ range m, δ k * ρ k
        = ∑ i ∈ range n, (x i - v i) * ∑ k ∈ range m, J k i * ρ k := by
          simp only [hδ, sum_mul, mul_sum]
          rw [sum_comm]
          exact sum_congr rfl fun i _ => sum_congr rfl fun k _ => by ring
      _ = 0 := sum_eq_zero fun i hi => by rw [horth i (mem_range.mp hi), mul_zero]
  have hsplit : ∀ k, ∑ j ∈ range n, J k j * x j + r k = δ k + ρ k := by
    intro k
    have hx : ∑ j ∈ range n, J k j * x j =
        ∑ j ∈ range n, J k j * (x j - v j) + ∑ j ∈ range n, J k j * v j := by
      rw [← sum_add_distrib]
      exact sum_congr rfl fun j _ => by ring
    rw [hx, add_assoc]
  have hsum : ∑ k ∈ range m, (δ k + ρ k) ^ 2 =
      ∑ k ∈ range m, δ k ^ 2 + ∑ k ∈ range m, ρ k ^ 2 := by
    have hterm : ∀ k, (δ k + ρ k) ^ 2 = δ k ^ 2 + ρ k ^ 2 + 2 * (δ k * ρ k) := fun k => by ring
    simp only [hterm, sum_add_distrib, ← mul_sum, hcross]
    ring
  simp only [hsplit, hsum]
  have hnonneg : 0 ≤ ∑ k ∈ range m, δ k ^ 2 := sum_nonneg fun k _ => sq_nonneg _
  exact le_add_of_nonneg_left hnonneg

namespace NormalEquations

/-! ### Assembly -/

theorem exists_layoutOf {dims : KeyMap ℕ} {ks : List Key} (h : ∀ k ∈ ks, k ∈ dims.keys) :
    ∃ l, (layoutOf dims ks : LinearRun ℝ Layout).outcome = .ok l ∧ l.map (·.1) = ks ∧
      ∀ e ∈ l, dims.get? e.1 = some e.2 := by
  induction ks with
  | nil => exact ⟨[], rfl, rfl, by simp⟩
  | cons k ks ih =>
    obtain ⟨l, hl, hkeys, hd⟩ := ih fun j hj => h j (List.mem_cons_of_mem _ hj)
    obtain ⟨w, hw⟩ := KeyMap.mem_keys_iff_exists.mp (h k List.mem_cons_self)
    refine ⟨(k, w) :: l, ?_, by rw [List.map_cons, hkeys], fun e he => ?_⟩
    · rw [layoutOf, hw]
      simp only
      rw [Logged.outcome_bind_ok _ hl]
      rfl
    · rcases List.mem_cons.mp he with rfl | he
      · exact hw
      · exact hd e he

/-- A problem laid out in the columns of an order. -/
structure IsAssembled {α : Type} [Scalar α] (g : GaussianGraph α) (dims : KeyMap ℕ)
    (o : EliminationOrder) (a : Assembled α) : Prop where
  keys : a.layout.map (·.1) = o.keys
  widths : ∀ e ∈ a.layout, dims.get? e.1 = some e.2
  jacobian : a.jacobian =
    Mat.ofRows (Layout.width a.layout) (g.factors.flatMap (·.plainRows a.layout))
  residual : a.residual = ⟨g.factors.flatMap fun f => f.rhs.coords.map (- ·)⟩

theorem exists_assemble {g : GaussianGraph ℝ} {dims : KeyMap ℕ} {o : EliminationOrder}
    (hdims : g.dims.outcome = .ok dims) (ho : o.keys.Perm g.keys.keys) :
    ∃ a, (assemble g o).outcome = .ok a ∧ IsAssembled g dims o a := by
  obtain ⟨-, hkeys⟩ := GaussianGraph.dims_of_ok hdims
  have hmem : ∀ k ∈ o.keys, k ∈ dims.keys := fun k hk => by
    rw [hkeys]
    exact ho.mem_iff.mp hk
  obtain ⟨l, hl, hlk, hld⟩ := exists_layoutOf hmem
  have hfind : dims.keys.find? (fun k => !o.contains k) = none := by
    rw [List.find?_eq_none]
    intro k hk
    rw [hkeys] at hk
    simp [EliminationOrder.contains, ho.mem_iff.mpr hk]
  refine ⟨⟨l, Mat.ofRows (Layout.width l) (g.factors.flatMap (·.plainRows l)),
    ⟨g.factors.flatMap fun f => f.rhs.coords.map (- ·)⟩⟩, ?_, hlk, hld, rfl, rfl⟩
  unfold assemble
  rw [Logged.outcome_bind_ok _ hdims]
  simp only [hfind]
  rw [Logged.outcome_bind_ok _ hl]
  rfl

theorem IsAssembled.size_residual {g : GaussianGraph ℝ} {dims : KeyMap ℕ} {o : EliminationOrder}
    {a : Assembled ℝ} (ha : IsAssembled g dims o a) : a.residual.size = a.jacobian.height := by
  rw [ha.residual, ha.jacobian, Vec.size_mk, Mat.height, Mat.ofRows, List.length_map,
    List.length_flatMap, List.length_flatMap]
  congr 1
  refine List.map_congr_left fun f _ => ?_
  rw [List.length_map, GaussianFactor.length_plainRows]
  rfl

/-- The residuals of factors at a point, one after the other. -/
noncomputable def residuals (fs : List (GaussianFactor ℝ)) (p : Key → ℕ → ℝ) : Vec ℝ :=
  ⟨fs.flatMap fun f => (List.range f.height).map fun i => f.value p i - f.rhs.get i⟩

theorem normSq_residuals (fs : List (GaussianFactor ℝ)) (p : Key → ℕ → ℝ) :
    (residuals fs p).normSq = factorsSq fs p := by
  rw [Vec.normSq_eq_sum_coords]
  induction fs with
  | nil => rfl
  | cons f fs ih =>
    have hcons : (residuals (f :: fs) p).coords =
        ((List.range f.height).map fun i => f.value p i - f.rhs.get i) ++ (residuals fs p).coords :=
      rfl
    rw [hcons, List.map_append, List.sum_append, factorsSq_cons, ih, GaussianFactor.sq]
    congr 1
    rw [List.map_map, sum_map_eq_sum_range _ _ 0, List.length_range]
    refine sum_congr rfl fun i hi => ?_
    rw [List.getD_eq_getElem _ _ (by simpa using hi), List.getElem_range]
    rfl

theorem residuals_coord (fs : List (GaussianFactor ℝ)) (x : BlockVector ℝ) :
    residuals fs x.coord = ⟨fs.flatMap fun f => (f.residual x).coords⟩ := by
  unfold residuals
  congr 1
  refine List.flatMap_congr fun f _ => ?_
  have hsize : (f.residual x).coords.length = f.height := f.size_residual x
  refine List.ext_getElem (by rw [List.length_map, List.length_range, hsize]) fun i hi hi' => ?_
  rw [List.getElem_map, List.getElem_range, ← Vec.get_eq_getElem hi', f.get_residual]

/-- **The product of the assembled matrix with a point in its columns, plus the residual at zero, is
the stack of the residuals at the point.** -/
theorem mulVec_add_residual {fs : List (GaussianFactor ℝ)} {l : Layout}
    (hf : ∀ f ∈ fs, f.InLayout l) (hl : (l.map (·.1)).Nodup) (p : Key → ℕ → ℝ) :
    (Mat.ofRows (Layout.width l) (fs.flatMap (·.plainRows l))).mulVec ⟨Layout.lay l p⟩ +
      ⟨fs.flatMap fun f => f.rhs.coords.map (- ·)⟩ = residuals fs p := by
  have hrows : (Mat.ofRows (Layout.width l) (fs.flatMap (·.plainRows l))).rows =
      fs.flatMap (·.plainRows l) := Mat.rows_ofRows fun r hr => by
    obtain ⟨f, hfs, hr⟩ := List.mem_flatMap.mp hr
    exact GaussianFactor.size_plainRows (hf f hfs) hl r hr
  rw [Mat.mulVec, hrows]
  change (⟨List.zipWith (· + ·) _ _⟩ : Vec ℝ) = _
  unfold residuals
  congr 1
  induction fs with
  | nil => rfl
  | cons f fs ih =>
    have hlen : ((f.plainRows l).map (·.apply ⟨Layout.lay l p⟩)).length =
        (f.rhs.coords.map (- ·)).length := by
      rw [List.length_map, List.length_map, GaussianFactor.length_plainRows]
      rfl
    have hfi := hf f List.mem_cons_self
    rw [List.flatMap_cons, List.flatMap_cons, List.flatMap_cons, List.map_append,
      List.zipWith_append hlen]
    congr 1
    · refine List.ext_getElem ?_ fun i hi hi' => ?_
      · rw [List.length_zipWith, ← hlen, min_self, List.length_map, List.length_map,
          List.length_range, GaussianFactor.length_plainRows]
      · rw [List.length_map, List.length_range] at hi'
        have hir : i < (f.plainRows l).length := by rwa [GaussianFactor.length_plainRows]
        have hib : i < f.rhs.coords.length := hi'
        rw [List.getElem_zipWith, List.getElem_map, List.getElem_map, List.getElem_map,
          List.getElem_range, ← List.getD_eq_getElem _ ⟨[]⟩ hir,
          GaussianFactor.apply_plainRows hfi hl p hi', ← Vec.get_eq_getElem hib, sub_eq_add_neg]
    · refine ih (fun f' hf' => hf f' (List.mem_cons_of_mem _ hf')) (Mat.rows_ofRows fun r hr => ?_)
      obtain ⟨f', hfs, hr⟩ := List.mem_flatMap.mp hr
      exact GaussianFactor.size_plainRows (hf f' (List.mem_cons_of_mem _ hfs)) hl r hr

/-! ### The solution -/

theorem get?_widths_split {α : Type} {l : Layout} (hl : (l.map (·.1)).Nodup) {x : List α}
    (hx : x.length = Layout.width l) (k : Key) : (split x l).widths.get? k = KeyMap.find? k l := by
  induction l generalizing x with
  | nil => simp [split, KeyMap.find?]
  | cons e l ih =>
    obtain ⟨j, w⟩ := e
    rw [List.map_cons, List.nodup_cons] at hl
    rw [Layout.width_cons] at hx
    have htake : (x.take w).length = w := by
      rw [List.length_take, hx]
      exact min_eq_left (Nat.le_add_right _ _)
    rw [split, BlockVector.widths_insert, KeyMap.get?_insert,
      ih hl.2 (by rw [List.length_drop, hx]; omega), KeyMap.find?, Vec.size_mk, htake]
    simp only [eq_comm]

theorem lay_split {l : Layout} (hl : (l.map (·.1)).Nodup) {x : List ℝ}
    (hx : x.length = Layout.width l) : Layout.lay l (split x l).coord = x := by
  induction l generalizing x with
  | nil => exact (List.length_eq_zero_iff.mp hx).symm
  | cons e l ih =>
    obtain ⟨k, w⟩ := e
    rw [List.map_cons, List.nodup_cons] at hl
    rw [Layout.width_cons] at hx
    have hlay := ih hl.2 (x := x.drop w) (by rw [List.length_drop, hx]; omega)
    have htake : (x.take w).length = w := by
      rw [List.length_take, hx]
      exact min_eq_left (Nat.le_add_right _ _)
    have hfirst : (List.range w).map (BlockVector.coord (split x ((k, w) :: l)) k) = x.take w := by
      refine List.ext_getElem (by rw [List.length_map, List.length_range, htake]) fun i hi hi' => ?_
      rw [List.getElem_map, List.getElem_range, split, BlockVector.coord_insert, if_pos rfl,
        Vec.get_eq_getElem hi']
    have hrest : Layout.lay l (BlockVector.coord (split x ((k, w) :: l))) = x.drop w := by
      rw [← hlay]
      refine Layout.lay_congr fun e he i _ => ?_
      rw [split, BlockVector.coord_insert, if_neg]
      rintro rfl
      exact hl.1 (List.mem_map.mpr ⟨e, he, rfl⟩)
    rw [Layout.lay_cons, hfirst, hrest, List.take_append_drop]

section Solve
variable {g : GaussianGraph ℝ} {dims : KeyMap ℕ} {o : EliminationOrder}
  (hdims : g.dims.outcome = .ok dims) (ho : o.keys.Perm g.keys.keys)
include hdims ho

theorem find?_layout {l : Layout} (hk : l.map (·.1) = o.keys)
    (hd : ∀ e ∈ l, dims.get? e.1 = some e.2) (k : Key) : KeyMap.find? k l = dims.get? k := by
  by_cases hm : k ∈ l.map (·.1)
  · obtain ⟨e, he, rfl⟩ := List.mem_map.mp hm
    rw [hd e he]
    exact KeyMap.find?_eq_some_of_nodup (by rw [hk]; exact o.nodup) he
  · rw [KeyMap.find?_eq_none_iff.mpr hm, eq_comm, KeyMap.get?_eq_none_iff,
      (GaussianGraph.dims_of_ok hdims).2, ← ho.mem_iff, ← hk]
    exact hm

theorem inLayout_of_isAssembled {a : Assembled ℝ} (ha : IsAssembled g dims o a) :
    ∀ f ∈ g.factors, f.InLayout a.layout := by
  intro f hf t ht
  have hd := (GaussianGraph.dims_of_ok hdims).1 f hf t ht
  rw [← find?_layout hdims ho ha.keys ha.widths] at hd
  exact KeyMap.mem_of_find?_eq_some hd

theorem factorsSq_of_isAssembled {a : Assembled ℝ} (ha : IsAssembled g dims o a) (p : Key → ℕ → ℝ) :
    factorsSq g.factors p = ∑ k ∈ range a.jacobian.height,
      (∑ j ∈ range a.jacobian.cols, a.jacobian.get k j * (Layout.lay a.layout p).getD j 0 +
        a.residual.get k) ^ 2 := by
  have hl : (a.layout.map (·.1)).Nodup := by
    rw [ha.keys]
    exact o.nodup
  have hresidual : a.jacobian.mulVec ⟨Layout.lay a.layout p⟩ + a.residual =
      residuals g.factors p := by
    rw [ha.jacobian, ha.residual]
    exact mulVec_add_residual (inLayout_of_isAssembled hdims ho ha) hl p
  have hrsize := ha.size_residual
  rw [← normSq_residuals, ← hresidual, Vec.normSq_eq_sum _ le_rfl, Vec.size_add, Mat.size_mulVec,
    hrsize, min_self]
  refine sum_congr rfl fun k _ => ?_
  rw [Vec.get_add (by rw [Mat.size_mulVec, hrsize]), Mat.get_mulVec]
  rfl

/-- **The normal equations are solved at a point with the least sum of squares**, with blocks for
exactly the variables. -/
theorem solve_le {x : BlockVector ℝ} (h : (solve g o).outcome = .ok x) :
    x.widths = dims ∧ ∀ p, factorsSq g.factors x.coord ≤ factorsSq g.factors p := by
  obtain ⟨hc, hkeys⟩ := GaussianGraph.dims_of_ok hdims
  unfold solve at h
  split_ifs at h with hempty
  · -- without variables no residual depends on the point
    cases h
    have hnone : ∀ k, dims.get? k = none := by
      intro k
      rw [KeyMap.get?_eq_none_iff, hkeys, ← ho.mem_iff, List.isEmpty_iff.mp hempty]
      exact List.not_mem_nil
    refine ⟨KeyMap.ext fun k => by rw [hnone]; rfl, fun p => le_of_eq (factorsSq_congr hc ?_)⟩
    intro k w hk
    rw [hnone] at hk
    cases hk
  · obtain ⟨a', ha', h⟩ := Logged.outcome_bind_eq_ok.mp h
    obtain ⟨a, haok, ha⟩ := exists_assemble hdims ho
    obtain rfl : a' = a := Except.ok.inj (ha'.symm.trans haok)
    have hl : (a'.layout.map (·.1)).Nodup := by
      rw [ha.keys]
      exact o.nodup
    split at h
    · obtain ⟨_, -, h⟩ := Logged.outcome_bind_eq_ok.mp h
      exact absurd h Logged.outcome_fail_ne_ok
    next v hv =>
    split at h
    · cases h
      have hcols : a'.jacobian.cols = Layout.width a'.layout := by
        rw [ha.jacobian]
        rfl
      have hrsize := ha.size_residual
      obtain ⟨hvs, hne⟩ := SparseSystem.solve_spec (SparseSystem.tidy_ofLeastSquares _ _)
        (fun i j => by
          rw [SparseSystem.entry_ofLeastSquares, SparseSystem.entry_ofLeastSquares]
          exact sum_congr rfl fun k _ => mul_comm _ _) hv
      have hlen : v.coords.length = Layout.width a'.layout := hvs.trans hcols
      refine ⟨KeyMap.ext fun k => ?_, fun p => ?_⟩
      · rw [get?_widths_split hl hlen, find?_layout hdims ho ha.keys ha.widths]
      rw [factorsSq_of_isAssembled hdims ho ha, factorsSq_of_isAssembled hdims ho ha,
        lay_split hl hlen]
      refine sum_sq_le_of_normalEquations (v := fun j => v.coords.getD j 0) (fun i hi => ?_) _
      rw [← SparseSystem.rhs_ofLeastSquares _ _ hrsize hi, ← hne i hi]
      refine sum_congr rfl fun j _ => ?_
      rw [SparseSystem.entry_ofLeastSquares]
      rfl
    · exact absurd h LinearError.outcome_stop_ne_ok

end Solve

/-- **A direct method finds the solution**, if there is one and the method answers. -/
theorem eq_of_isMinimizer {g : GaussianGraph ℝ} {dims : KeyMap ℕ} {o : EliminationOrder}
    (hdims : g.dims.outcome = .ok dims) (ho : o.keys.Perm g.keys.keys) {x : BlockVector ℝ}
    (hmin : g.IsMinimizer dims x) {m : DirectMethod} {x' : BlockVector ℝ}
    (h : (m.solve g o).outcome = .ok x') : x' = x := by
  unfold DirectMethod.solve at h
  obtain ⟨_, -, h⟩ := Logged.outcome_bind_eq_ok.mp h
  cases m with
  | qr =>
    obtain ⟨net, hnet, h⟩ := Logged.outcome_bind_eq_ok.mp h
    obtain ⟨dims', y, hdims', hy, hmin'⟩ := GaussianGraph.isMinimizer_optimize ho hnet
    obtain rfl : dims' = dims := Except.ok.inj (hdims'.symm.trans hdims)
    obtain rfl : y = x' := Except.ok.inj (hy.symm.trans h)
    exact hmin.eq hmin'
  | cholesky =>
    obtain ⟨hw, hle⟩ := solve_le hdims ho h
    have he : g.error x' = g.error x := by
      rw [g.error_eq, g.error_eq, le_antisymm (hle x.coord) (hmin.le x'.coord)]
    exact KeyMap.ext fun k => hmin.get?_eq he (by rw [hw])

/-- **The normal equations and elimination agree.** In an order of the variables a problem is
assembled with a range of columns for each: the ranges follow each other in the sequence of the
order, do not overlap and cover all columns. At any vector whose blocks stand in these columns, the
matrix times them plus the residual at zero is the stack of the factors' residuals. And if a problem
is solved by the normal equations in one order and by elimination in another, both find the same
vector. -/
theorem assemble_solve_spec {g : GaussianGraph ℝ} {dims : KeyMap ℕ} {o : EliminationOrder}
    (hdims : g.dims.outcome = .ok dims) (ho : o.keys.Perm g.keys.keys) :
    (∃ a, (assemble g o).outcome = .ok a ∧
      (a.layout.ranges 0).map (·.1) = o.keys ∧
      (∀ e ∈ a.layout.ranges 0, dims.get? e.1 = some e.2.2) ∧
      Layout.Consecutive 0 (a.layout.ranges 0) a.jacobian.cols ∧
      (a.layout.ranges 0).Pairwise (fun d e => d.2.1 + d.2.2 ≤ e.2.1) ∧
      (∀ j < a.jacobian.cols, ∃! e, e ∈ a.layout.ranges 0 ∧ e.2.1 ≤ j ∧ j < e.2.1 + e.2.2) ∧
      ∀ (x : BlockVector ℝ) (v : Vec ℝ), v.size = a.jacobian.cols →
        (∀ e ∈ a.layout.ranges 0, ∀ i < e.2.2, v.get (e.2.1 + i) = x.coord e.1 i) →
          a.jacobian.mulVec v + a.residual = ⟨g.factors.flatMap fun f => (f.residual x).coords⟩) ∧
    ∀ o' x x', o'.keys.Perm g.keys.keys → (DirectMethod.cholesky.solve g o).outcome = .ok x →
      (DirectMethod.qr.solve g o').outcome = .ok x' → x = x' := by
  constructor
  · obtain ⟨a, haok, ha⟩ := exists_assemble hdims ho
    have hl : (a.layout.map (·.1)).Nodup := by
      rw [ha.keys]
      exact o.nodup
    have hcols : a.jacobian.cols = Layout.width a.layout := by
      rw [ha.jacobian]
      rfl
    have hmap := Layout.map_ranges a.layout 0
    refine ⟨a, haok, ?_, fun e he => ?_, ?_, Layout.pairwise_ranges _ _, fun j hj => ?_,
      fun x v hv hx => ?_⟩
    · rw [← ha.keys, ← hmap, List.map_map]
      simp only [hmap]
      rfl
    · refine ha.widths (e.1, e.2.2) ?_
      rw [← hmap]
      exact List.mem_map.mpr ⟨e, he, rfl⟩
    · have h := Layout.consecutive_ranges a.layout 0
      rwa [Nat.zero_add, ← hcols] at h
    · exact Layout.existsUnique_range (Nat.zero_le j) (by rwa [Nat.zero_add, ← hcols])
    · have hlay : v = ⟨Layout.lay a.layout x.coord⟩ := by
        refine Vec.ext_get (by rw [hv, hcols, Vec.size_mk, Layout.length_lay]) fun j hj => ?_
        have h := Layout.eq_getD_lay hx j (by rwa [← hcols, ← hv])
        rwa [Nat.zero_add] at h
      rw [hlay, ← residuals_coord, ha.jacobian, ha.residual]
      exact mulVec_add_residual (inLayout_of_isAssembled hdims ho ha) hl x.coord
  · intro o' x x' ho' hx hx'
    have hqr := hx'
    unfold DirectMethod.solve at hqr
    obtain ⟨_, -, hqr⟩ := Logged.outcome_bind_eq_ok.mp hqr
    obtain ⟨net, hnet, -⟩ := Logged.outcome_bind_eq_ok.mp hqr
    obtain ⟨dims', y, hdims', -, hmin⟩ := GaussianGraph.isMinimizer_optimize ho' hnet
    obtain rfl : dims' = dims := Except.ok.inj (hdims'.symm.trans hdims)
    rw [eq_of_isMinimizer hdims ho hmin hx, eq_of_isMinimizer hdims ho' hmin hx']

end NormalEquations

/-! ### Two equations -/

namespace TwoEquations

theorem assemble_problem : (NormalEquations.assemble problem order).outcome =
    .ok ⟨[(firstKey, 1), (secondKey, 1)], Mat.ofRows 2 [⟨[1, 1]⟩, ⟨[0, 1]⟩], ⟨[-1, -1]⟩⟩ := rfl

/-- The normal equations `x₁ + x₂ = 1` and `x₁ + 2 x₂ = 2`. -/
noncomputable def system : SparseSystem ℝ :=
  ⟨2, #[[(0, 1), (1, 1)], [(0, 1), (1, 1 + 1)]], #[1, 1 + 1]⟩

theorem ofLeastSquares_problem :
    SparseSystem.ofLeastSquares (Mat.ofRows 2 [⟨[1, 1]⟩, ⟨[0, 1]⟩]) ⟨[-1, -1]⟩ = system := by
  have h1 : SparseVec.ofList [(1 : ℝ), 1] = [(0, 1), (1, 1)] := by simp [SparseVec.ofList]
  have h2 : SparseVec.ofList [(0 : ℝ), 1] = [(1, 1)] := by simp [SparseVec.ofList]
  have hrows : (Mat.ofRows 2 [⟨[(1 : ℝ), 1]⟩, ⟨[0, 1]⟩]).rows.map
      (fun row => SparseVec.ofList row.coords) = [[(0, 1), (1, 1)], [(1, 1)]] := by
    rw [← h1, ← h2]
    rfl
  have hcolumns : [[(0, (1 : ℝ)), (1, 1)], [(1, 1)]].foldl SparseSystem.addSquare
      (Array.replicate 2 []) =
      #[[(0, 0 + 1 * 1), (1, 0 + 1 * 1)], [(0, 0 + 1 * 1), (1, 0 + 1 * 1 + 1 * 1)]] := rfl
  have hgradient : (List.zip [(-1 : ℝ), -1] [[(0, 1), (1, 1)], [(1, 1)]]).foldl
      (fun g e => SparseVec.addScaledTo e.1 e.2 g) (Array.replicate 2 0) =
        #[0 + -1 * 1, 0 + -1 * 1 + -1 * 1] := rfl
  have hcols : (Mat.ofRows 2 [⟨[(1 : ℝ), 1]⟩, ⟨[0, 1]⟩]).cols = 2 := rfl
  rw [SparseSystem.ofLeastSquares, hrows, hcols, hcolumns, hgradient, system]
  norm_num

theorem ofNeighbours_system : FillOrder.ofNeighbours 2 system.neighbours = [0, 1] := by
  have h : ((FillOrder.State.start 2 system.neighbours).run 2 2).unknowns 2 = [0, 1] := rfl
  unfold FillOrder.ofNeighbours
  rw [h]
  simp only []
  split <;> rfl

theorem exists_ofRows : ∃ f, LowerFactor.ofRows [([], (1 : ℝ)), ([(0, 1)], 1 + 1)] = .ok f := by
  have h1 : LowerFactor.addRow #[] ([], (1 : ℝ)) = .ok #[⟨Real.sqrt 1, [], none⟩] := by
    simp [LowerFactor.addRow, LowerFactor.columnsFrom, SparseVec.addScaledTo]
  have h2 : ∃ f, LowerFactor.addRow #[⟨Real.sqrt 1, [], none⟩] ([(0, (1 : ℝ))], (1 + 1 : ℝ)) =
      .ok f := by
    refine ⟨_, if_pos ?_⟩
    change ((#[0] : Array ℝ).all (· == 0) &&
      decide ((0 : ℝ) < 1 + 1 - (0 + 1 * 1) * (1 / Real.sqrt 1) *
      ((0 + 1 * 1) * (1 / Real.sqrt 1)))) = true
    simp
  obtain ⟨f, hf⟩ := h2
  refine ⟨f, ?_⟩
  rw [LowerFactor.ofRows, List.foldlM_cons, h1]
  change (LowerFactor.addRow _ _ >>= _) = _
  rw [hf]
  rfl

theorem exists_solve : ∃ x, (DirectMethod.cholesky.solve problem order).outcome = .ok x := by
  obtain ⟨f, hf⟩ := exists_ofRows
  have hsolve : ∃ v, system.solve = .ok v := by
    unfold SparseSystem.solve
    rw [show system.size = 2 from rfl, ofNeighbours_system]
    change ∃ v, (LowerFactor.ofRows [([], (1 : ℝ)), ([(0, 1)], 1 + 1)] >>= _) = Except.ok v
    rw [hf]
    exact ⟨_, rfl⟩
  obtain ⟨v, hv⟩ := hsolve
  have hfinite : v.allFinite = true := by simp [Vec.allFinite]
  refine ⟨NormalEquations.split v.coords [(firstKey, 1), (secondKey, 1)], ?_⟩
  unfold DirectMethod.solve
  rw [Logged.outcome_bind_ok _ (Logged.outcome_report _)]
  change (NormalEquations.assemble problem order >>= _).outcome = _
  rw [Logged.outcome_bind_ok _ assemble_problem]
  simp only [ofLeastSquares_problem, hv, hfinite, if_true]
  rfl

/-- Both methods solve the two equations, with the same result. -/
theorem exists_solve_both : ∃ x, (DirectMethod.cholesky.solve problem order).outcome = .ok x ∧
    (DirectMethod.qr.solve problem order).outcome = .ok x := by
  obtain ⟨-, hagree⟩ :=
    NormalEquations.assemble_solve_spec (show problem.dims.outcome = .ok dims from rfl)
    (List.Perm.refl order.keys)
  obtain ⟨x, hx⟩ := exists_solve
  obtain ⟨-, x', -, hx', -⟩ :=
    GaussianGraph.isMinimizer_optimize (List.Perm.refl _) eliminate_problem
  have hqr : (DirectMethod.qr.solve problem order).outcome = .ok x' := by
    unfold DirectMethod.solve
    rw [Logged.outcome_bind_ok _ (Logged.outcome_report _)]
    change (problem.eliminate order >>= _).outcome = _
    rw [Logged.outcome_bind_ok _ eliminate_problem, hx']
  refine ⟨x, hx, ?_⟩
  rw [hagree order x x' (List.Perm.refl _) hx hqr, hqr]

end TwoEquations

end Smoothing
