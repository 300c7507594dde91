import Mathlib
import Smoothing.Proofs.Linear.Elimination
import Smoothing.Proofs.Mat.Largest

/-!
# Elimination fails only where a variable is not determined

For factors with consistent widths, eliminating a variable answers if and only if its rows determine
it: there are as many of them as it has columns, and no pivot is negligible
(`Elimination.IsDetermined`). No block is cut outside of the triangular factor, and the remainder is
a factor. So an elimination answers, or it names a variable that is not determined
(`Elimination.eliminateAll_total`). In an order of all variables it leaves only factors over that
have none (`Elimination.of_mem_left`).
-/

namespace Smoothing

namespace Elimination

/-! ### Cutting the triangular factor -/

theorem exists_widths {α : Type} {dims : KeyMap ℕ} {ks : List Key}
    (h : ∀ j ∈ ks, ∃ w, dims.get? j = some w) :
    ∃ l, (widths dims ks : LinearRun α Layout).outcome = .ok l := by
  induction ks with
  | nil => exact ⟨[], rfl⟩
  | cons k ks ih =>
    obtain ⟨w, hw⟩ := h k List.mem_cons_self
    obtain ⟨l, hl⟩ := ih fun j hj => h j (List.mem_cons_of_mem _ hj)
    refine ⟨(k, w) :: l, ?_⟩
    rw [widths, hw]
    exact Logged.outcome_bind_ok _ hl

section Blocks
variable {α : Type} {r : Mat α} {i h : ℕ} (hi : i + h ≤ r.height)
include hi

theorem exists_block? {j w : ℕ} (hj : j + w ≤ r.cols) : ∃ b, r.block? i j h w = some b :=
  ⟨_, if_pos ⟨hi, hj⟩⟩

theorem exists_blocksOf {l : Layout} {j : ℕ} (hl : j + Layout.width l ≤ r.cols) :
    ∃ bs, blocksOf r i h l j = some bs := by
  induction l generalizing j with
  | nil => exact ⟨[], rfl⟩
  | cons e l ih =>
    rw [Layout.width_cons] at hl
    obtain ⟨b, hb⟩ := exists_block? hi (j := j) (w := e.2) (by omega)
    obtain ⟨bs, hbs⟩ := ih (j := j + e.2) (by omega)
    refine ⟨(e.1, b) :: bs, ?_⟩
    unfold blocksOf at hbs ⊢
    rw [Layout.ranges, List.mapM_cons, hbs]
    simp [hb]

theorem exists_columnOf [Scalar α] {j : ℕ} (hj : j < r.cols) : ∃ d, columnOf r i h j = some d := by
  obtain ⟨b, hb⟩ := exists_block? hi (j := j) (w := 1) hj
  exact ⟨_, congrArg _ hb⟩

end Blocks

theorem exists_ofBlocks? {α : Type} [Scalar α] {r : Mat α} {i h start j : ℕ} {l : Layout}
    (hl : (l.map (·.1)).Nodup) {bs : List (Key × Mat α)} (hbs : blocksOf r i h l start = some bs)
    {d : Vec α} (hd : columnOf r i h j = some d) :
    ∃ f, GaussianFactor.ofBlocks? (bs.map (·.1)) (bs.map (·.2)) d = .ok f := by
  have hheight := (blocksOf_shape hbs).1
  have hnodup : (bs.map (·.1)).Nodup := (keys_of_blocksOf hbs).symm ▸ hl
  refine ⟨⟨bs, d, fun t ht => (hheight t ht).trans (columnOf_spec hd).1.symm, hnodup⟩, ?_⟩
  rw [GaussianFactor.ofBlocks?_eq_ok_iff, zip_map_fst_snd]
  simp

/-! ### One variable -/

/-- The rows of factors determine a variable: there are enough of them, and no pivot is
negligible. -/
def IsDetermined {α : Type} [Scalar α] (k : Key) (dim : ℕ) (others : Layout)
    (fs : List (GaussianFactor α)) : Prop :=
  dim ≤ GaussianGraph.height ⟨fs⟩ ∧
    ¬ isNegligible (stack ((k, dim) :: others) fs).triangular dim
      ((stack ((k, dim) :: others) fs).columns 0 (dim + Layout.width others)).amax = true

section One
variable {α : Type} [Scalar α] {k : Key} {dim : ℕ} {fs : List (GaussianFactor α)} {dims : KeyMap ℕ}
  {o : EliminationOrder} {others : Layout}
  (ho : (widths dims (separator o k fs) : LinearRun α Layout).outcome = .ok others)
include ho

theorem eliminateOne_of_not_isDetermined (h : ¬ IsDetermined k dim others fs) :
    (eliminateOne k dim fs dims o).outcome = .error (.cause (.degenerate k)) := by
  have hwidth : Layout.width ((k, dim) :: others) = dim + Layout.width others := rfl
  unfold eliminateOne
  rw [Logged.outcome_bind_ok _ ho]
  simp only [hwidth]
  by_cases hrows : GaussianGraph.height ⟨fs⟩ < dim
  · rw [if_pos hrows]
    rfl
  · have hpivot : isNegligible (stack ((k, dim) :: others) fs).triangular dim
        ((stack ((k, dim) :: others) fs).columns 0 (dim + Layout.width others)).amax = true := by
      by_contra hpivot
      exact h ⟨not_lt.mp hrows, hpivot⟩
    rw [if_neg hrows, if_pos hpivot, Logged.outcome_report_bind]
    rfl

/-- **A determined variable is eliminated.** -/
theorem exists_eliminateOne (h : IsDetermined k dim others fs) :
    ∃ c remainder, (eliminateOne k dim fs dims o).outcome = .ok (c, remainder) := by
  obtain ⟨hrows, hpivot⟩ := h
  have hwidth : Layout.width ((k, dim) :: others) = dim + Layout.width others := rfl
  have hnodup := nodup_layout k dim ho
  have hheight : (stack ((k, dim) :: others) fs).triangular.height =
      min (GaussianGraph.height ⟨fs⟩) (dim + Layout.width others + 1) := by
    rw [Mat.height_triangular, height_stack]
    rfl
  have hcols : (stack ((k, dim) :: others) fs).triangular.cols = dim + Layout.width others + 1 :=
    rfl
  unfold eliminateOne
  simp only [Logged.outcome_bind_ok _ ho, hwidth, if_neg (not_lt.mpr hrows), if_neg hpivot]
  generalize (stack ((k, dim) :: others) fs).triangular = r at *
  generalize GaussianGraph.height ⟨fs⟩ = m at *
  have hupper : 0 + dim ≤ r.height := by omega
  have hlower : dim + (min m (dim + Layout.width others) - dim) ≤ r.height := by omega
  obtain ⟨diagonal, hdiag⟩ := exists_block? hupper (j := 0) (w := dim) (by omega)
  obtain ⟨parents, hpar⟩ := exists_blocksOf hupper (l := others) (j := dim) (by omega)
  obtain ⟨d, hd⟩ := exists_columnOf hupper (j := dim + Layout.width others) (by omega)
  obtain ⟨blocks, hblocks⟩ := exists_blocksOf hlower (l := others) (j := dim) (by omega)
  obtain ⟨b, hb⟩ := exists_columnOf hlower (j := dim + Layout.width others) (by omega)
  obtain ⟨f, hf⟩ := exists_ofBlocks? (List.nodup_cons.mp hnodup).2 hblocks hb
  rw [Logged.outcome_bind_ok _ (Logged.outcome_fromOption_eq_ok.mpr hdiag),
    Logged.outcome_bind_ok _ (Logged.outcome_fromOption_eq_ok.mpr hpar),
    Logged.outcome_bind_ok _ (Logged.outcome_fromOption_eq_ok.mpr hd)]
  split
  · exact ⟨_, none, rfl⟩
  · refine ⟨⟨k, diagonal, parents, d⟩, some f, ?_⟩
    rw [Logged.outcome_bind_ok _ (Logged.outcome_fromOption_eq_ok.mpr hblocks),
      Logged.outcome_bind_ok _ (Logged.outcome_fromOption_eq_ok.mpr hb),
      Logged.outcome_bind_ok _ (Logged.outcome_lift_eq_ok.mpr hf)]
    rfl

/-- With more equations than the variable has coordinates a factor on the others is left over. -/
theorem exists_eliminateOne_some (h : IsDetermined k dim others fs)
    (hheight : dim < GaussianGraph.height ⟨fs⟩) (hothers : Layout.width others ≠ 0) :
    ∃ c f, (eliminateOne k dim fs dims o).outcome = .ok (c, some f) := by
  obtain ⟨c, remainder, hone⟩ := exists_eliminateOne ho h
  have hsome : remainder ≠ none := fun hnone =>
    ((eq_none_iff hone ho).mp hnone).elim (not_le.mpr hheight) hothers
  obtain ⟨f, rfl⟩ := Option.ne_none_iff_exists'.mp hsome
  exact ⟨c, f, hone⟩

end One

/-- A variable of one column is determined if its column is not zero and at least as long as any
entry. -/
theorem isDetermined_of_le {k : Key} {others : Layout} {fs : List (GaussianFactor ℝ)} {q : ℝ}
    (hq : ∑ i ∈ Finset.range (GaussianGraph.height ⟨fs⟩),
      (stack ((k, 1) :: others) fs).get i 0 ^ 2 = q) (hpos : 0 < q)
    (hle : ∀ i < GaussianGraph.height ⟨fs⟩, ∀ j < 1 + Layout.width others,
      (stack ((k, 1) :: others) fs).get i j ^ 2 ≤ q) : IsDetermined k 1 others fs := by
  set a := stack ((k, 1) :: others) fs with ha
  set scale := (a.columns 0 (1 + Layout.width others)).amax with hscale
  have hheight : a.height = GaussianGraph.height ⟨fs⟩ := height_stack _ _
  have hrows : 1 ≤ GaussianGraph.height ⟨fs⟩ := by
    by_contra hnone
    rw [Nat.lt_one_iff.mp (not_le.mp hnone), Finset.sum_range_zero] at hq
    exact hpos.ne hq
  have hpivot : a.triangular.get 0 0 ^ 2 = q := by
    rw [(Mat.isTriangularFactor_triangular a).sq_get_zero (Nat.succ_pos _), hheight, hq]
  have hamax : scale ≤ |a.triangular.get 0 0| := by
    refine (Mat.amax_le_iff (abs_nonneg _)).mpr fun i j => ?_
    rw [Mat.get_columns, ← sq_le_sq]
    split_ifs with hj
    · by_cases hi : i < GaussianGraph.height ⟨fs⟩
      · rw [Nat.zero_add, hpivot]
        exact hle i hi j hj
      · rw [Mat.get_of_height_le (by omega), zero_pow two_ne_zero]
        exact sq_nonneg _
    · rw [zero_pow two_ne_zero]
      exact sq_nonneg _
  have hne : scale ≠ 0 := by
    intro hzero
    have hcolumn : ∀ i, a.get i 0 = 0 := fun i => by
      have hget := Mat.abs_get_le_amax (a.columns 0 (1 + Layout.width others)) i 0
      rw [Mat.get_columns, if_pos (by omega), ← hscale, hzero] at hget
      exact abs_nonpos_iff.mp hget
    rw [Finset.sum_eq_zero fun i _ => by rw [hcolumn i, zero_pow two_ne_zero]] at hq
    exact hpos.ne hq
  have hscale0 : 0 < scale := lt_of_le_of_ne (Mat.amax_nonneg _) hne.symm
  have htolerance : (pivotTolerance : ℝ) < 1 := by
    unfold pivotTolerance
    norm_num
  have hlt : pivotTolerance * scale < |a.triangular.get 0 0| :=
    (mul_lt_of_lt_one_left hscale0 htolerance).trans_le hamax
  refine ⟨hrows, ?_⟩
  show ¬ isNegligible a.triangular 1 scale = true
  simpa [isNegligible, hne] using hlt

theorem isDetermined_of_ne_zero {k : Key} {fs : List (GaussianFactor ℝ)} {i : ℕ}
    (hi : i < GaussianGraph.height ⟨fs⟩) (hne : (stack [(k, 1)] fs).get i 0 ≠ 0) :
    IsDetermined k 1 [] fs := by
  have hterm : ∀ p ∈ Finset.range (GaussianGraph.height ⟨fs⟩),
      0 ≤ (stack [(k, 1)] fs).get p 0 ^ 2 :=
    fun p _ => sq_nonneg _
  refine isDetermined_of_le rfl ?_ fun p hp j hj => ?_
  · exact Finset.sum_pos' hterm ⟨i, Finset.mem_range.mpr hi, sq_pos_of_ne_zero hne⟩
  · have hwidth : Layout.width [] = 0 := rfl
    obtain rfl : j = 0 := by omega
    exact Finset.single_le_sum hterm (Finset.mem_range.mpr hp)

/-! ### All variables -/

theorem exists_others {α : Type} {dims : KeyMap ℕ} {fs : List (GaussianFactor α)}
    (hc : Consistent dims fs) (k : Key) (o : EliminationOrder) :
    ∃ others, (widths dims (separator o k fs) : LinearRun α Layout).outcome = .ok others :=
  exists_widths fun j hj => by
    obtain ⟨-, f, hf, hjf⟩ := mem_separator.mp hj
    obtain ⟨t, ht, rfl⟩ := List.mem_map.mp hjf
    exact ⟨_, hc f hf t ht⟩

theorem eliminateOne_total {α : Type} [Scalar α] (k : Key) (dim : ℕ) {fs : List (GaussianFactor α)}
    {dims : KeyMap ℕ} (hc : Consistent dims fs) (o : EliminationOrder) :
    (∃ c remainder, (eliminateOne k dim fs dims o).outcome = .ok (c, remainder)) ∨
      (eliminateOne k dim fs dims o).outcome = .error (.cause (.degenerate k)) := by
  obtain ⟨others, ho⟩ := exists_others hc k o
  by_cases h : IsDetermined k dim others fs
  · exact .inl (exists_eliminateOne ho h)
  · exact .inr (eliminateOne_of_not_isDetermined ho h)

/-- **Eliminating variables answers, or it names a variable that is not determined.** -/
theorem eliminateAll_total {α : Type} [Scalar α] {dims : KeyMap ℕ} (o : EliminationOrder)
    (ks : List Key) {pool : List (GaussianFactor α)} (hc : Consistent dims pool) :
    (∃ a, (eliminateAll dims o ks pool).outcome = .ok a) ∨
      ∃ k, (eliminateAll dims o ks pool).outcome = .error (.cause (.degenerate k)) := by
  induction ks generalizing pool with
  | nil => exact .inl ⟨_, rfl⟩
  | cons k ks ih =>
    rw [eliminateAll]
    cases hk : dims.get? k with
    | none => exact .inr ⟨k, rfl⟩
    | some dim =>
      dsimp only
      split
      · exact .inr ⟨k, rfl⟩
      rcases eliminateOne_total k dim (hc.filter _) o with ⟨c, remainder, hone⟩ | hone
      · rw [Logged.outcome_bind_ok _ hone]
        rcases ih (consistent_next hc (consistent_of_eliminateOne hone)) with ⟨a, hall⟩ | ⟨j, hall⟩
        · exact .inl ⟨_, Logged.outcome_bind_ok _ hall⟩
        · exact .inr ⟨j, Logged.outcome_bind_error _ hall⟩
      · exact .inr ⟨k, Logged.outcome_bind_error _ hone⟩

/-- **Only factors without variables are left over** when all variables of a pool are eliminated. -/
theorem of_mem_left {α : Type} [Scalar α] {dims : KeyMap ℕ} {o : EliminationOrder} {ks : List Key}
    {pool : List (GaussianFactor α)} {a : List (Conditional α) × List (GaussianFactor α)}
    (hpool : ∀ f ∈ pool, ∀ j ∈ f.keys, j ∈ ks) (h : (eliminateAll dims o ks pool).outcome = .ok a) :
    ∀ f ∈ a.2, f ∈ pool ∧ f.keys = [] := by
  induction ks generalizing pool a with
  | nil =>
    cases h
    exact fun f hf =>
      ⟨hf, List.eq_nil_iff_forall_not_mem.mpr fun j hj => List.not_mem_nil (hpool f hf j hj)⟩
  | cons k ks ih =>
    obtain ⟨dim, c, remainder, cs, -, -, hone, hall, -⟩ := eliminateAll_cons h
    intro f hf
    obtain ⟨hmem, hnil⟩ := ih (mem_next hone hpool) hall f hf
    rcases List.mem_append.mp hmem with hmem | hmem
    · exact ⟨(List.mem_filter.mp hmem).1, hnil⟩
    · -- a remainder has variables
      exact (((keys_of_eliminateOne hone).2.2 f hmem).2 hnil).elim

end Elimination

end Smoothing
