import Mathlib
import Smoothing.Proofs.Linear.Degenerate
import Smoothing.Proofs.Mat.Leading

/-!
# Elimination does not depend on the right-hand sides

The right-hand sides are the last column of the stacked rows, and the pivots and the blocks of the
remainder are cut from the columns before it. So for factors with the same blocks
(`GaussianFactor.SameBlocks`) a variable is determined by both or by none
(`Elimination.IsDetermined.of_sameBlocks`), the remainders have the same blocks again
(`Elimination.exists_eliminateOne_of_sameBlocks`), and both problems are eliminated or none is
(`GaussianGraph.exists_eliminate_of_sameBlocks`).
-/

namespace Smoothing

/-! ### Rows in a layout -/

namespace Mat.AgreeTo

variable {u v w : ℕ} {rows rows' : List (Vec ℝ)}

theorem prepend {us : List (Vec ℝ)} (hus : ∀ x ∈ us, x.size = u) (hlen : us.length = rows.length)
    (h : AgreeTo v w rows rows') :
    AgreeTo (u + v) (u + w) (List.zipWith Vec.append us rows)
      (List.zipWith Vec.append us rows') := by
  have hsize : ∀ rows'' : List (Vec ℝ), (∀ r ∈ rows'', r.size = w) →
      ∀ r ∈ List.zipWith Vec.append us rows'', r.size = u + w := by
    intro rows'' hrows r hr
    obtain ⟨x, hx, y, hy, rfl⟩ := exists_of_mem_zipWith hr
    exact (Vec.size_append x y).trans (by rw [hus x hx, hrows y hy])
  refine ⟨by simp [h.length], hsize _ h.size, hsize _ h.size', fun i j hj => ?_⟩
  by_cases hi : i < rows.length
  · have hget : ∀ rows'' : List (Vec ℝ), rows''.length = rows.length →
        (List.zipWith Vec.append us rows'').getD i ⟨[]⟩ = us.getD i ⟨[]⟩ ++ rows''.getD i ⟨[]⟩ := by
      intro rows'' hlen'
      rw [List.getD_eq_getElem _ _ (by simp; omega), List.getD_eq_getElem _ _ (by omega),
        List.getD_eq_getElem _ _ (by omega), List.getElem_zipWith]
      rfl
    rw [hget rows' h.length, hget rows rfl, Vec.get_append, Vec.get_append]
    split_ifs with hju
    · rfl
    · rw [size_getD_of_forall_size hus (by omega)] at hju ⊢
      exact h.get i _ (by omega)
  · rw [List.getD_eq_default _ _ (by simp [h.length]; omega),
      List.getD_eq_default _ _ (by simp; omega)]

theorem append {more more' : List (Vec ℝ)} (h : AgreeTo v w rows rows')
    (hmore : AgreeTo v w more more') : AgreeTo v w (rows ++ more) (rows' ++ more') := by
  refine ⟨by rw [List.length_append, List.length_append, h.length, hmore.length],
    List.forall_mem_append.mpr ⟨h.size, hmore.size⟩,
    List.forall_mem_append.mpr ⟨h.size', hmore.size'⟩, fun i j hj => ?_⟩
  by_cases hi : i < rows.length
  · rw [List.getD_append _ _ _ _ hi, List.getD_append _ _ _ _ (by rwa [h.length]), h.get i j hj]
  · rw [List.getD_append_right _ _ _ _ (not_lt.mp hi),
      List.getD_append_right _ _ _ _ (by rw [h.length]; omega), h.length, hmore.get _ j hj]

end Mat.AgreeTo

/-! ### Factors with the same blocks -/

namespace GaussianFactor

/-- The factors differ in their right-hand sides only. -/
def SameBlocks (f f' : GaussianFactor ℝ) : Prop := f'.terms = f.terms ∧ f'.rhs.size = f.rhs.size

namespace SameBlocks

variable {f f' : GaussianFactor ℝ} (h : f.SameBlocks f')
include h

theorem keys_eq : f'.keys = f.keys := by rw [keys, keys, h.1]

theorem height_eq : f'.height = f.height := h.2

theorem mentions_eq (k : Key) :
    f'.mentions k = f.mentions k :=
  by rw [mentions, mentions, h.keys_eq]

theorem blockRows_eq (k : Key) (w : ℕ) : f'.blockRows k w = f.blockRows k w := by
  rw [blockRows, blockRows, blockFor?, blockFor?, h.1, h.height_eq]

theorem agreeTo {l : Layout} (hf : f.InLayout l) (hl : (l.map (·.1)).Nodup) :
    Mat.AgreeTo (Layout.width l) (Layout.width l + 1) (f.augmentedRows l) (f'.augmentedRows l) := by
  have hlast : Mat.AgreeTo 0 1 (f.rhs.coords.map fun b => ⟨[b]⟩) (f'.rhs.coords.map fun b =>
      ⟨[b]⟩) := by
    refine ⟨?_, ?_, ?_, fun _ _ hj => absurd hj (Nat.not_lt_zero _)⟩
    · rw [List.length_map, List.length_map]
      exact h.2
    · simp
    · simp
  have hrows : ∀ l' : Layout, (∀ e ∈ l', e ∈ l) →
      Mat.AgreeTo (Layout.width l') (Layout.width l' + 1)
      (f.rowsIn l' (f.rhs.coords.map fun b => ⟨[b]⟩))
          (f'.rowsIn l' (f'.rhs.coords.map fun b => ⟨[b]⟩)) := by
    intro l'
    induction l' with
    | nil => exact fun _ => hlast
    | cons e l' ih =>
      intro he
      have hblock : ∀ r ∈ f.blockRows e.1 e.2, r.size = e.2 := by
        intro r hr
        obtain ⟨i, hi, rfl⟩ := List.getElem_of_mem hr
        rw [← List.getD_eq_getElem _ ⟨[]⟩ hi]
        exact size_getD_blockRows hf hl (he e List.mem_cons_self) (by rwa [length_blockRows] at hi)
      rw [rowsIn_cons, rowsIn_cons, h.blockRows_eq, Layout.width_cons, Nat.add_assoc]
      refine (ih fun e' he' => he e' (List.mem_cons_of_mem _ he')).prepend hblock ?_
      rw [length_blockRows, length_rowsIn f l' (by rw [List.length_map]; rfl)]
  exact hrows l fun _ he => he

end SameBlocks

end GaussianFactor

open GaussianFactor

namespace Elimination

section Pool
variable {fs fs' : List (GaussianFactor ℝ)} (h : List.Forall₂ SameBlocks fs fs')
include h

theorem terms_of_sameBlocks :
    fs'.flatMap GaussianFactor.terms = fs.flatMap GaussianFactor.terms := by
  induction h with
  | nil => rfl
  | cons hf _ ih => rw [List.flatMap_cons, List.flatMap_cons, ih, hf.1]

theorem keys_of_sameBlocks : fs'.flatMap GaussianFactor.keys = fs.flatMap GaussianFactor.keys := by
  induction h with
  | nil => rfl
  | cons hf _ ih => rw [List.flatMap_cons, List.flatMap_cons, ih, hf.keys_eq]

theorem height_of_sameBlocks : GaussianGraph.height ⟨fs'⟩ = GaussianGraph.height ⟨fs⟩ := by
  unfold GaussianGraph.height
  induction h with
  | nil => rfl
  | cons hf _ ih => rw [List.foldr_cons, List.foldr_cons, ih, hf.height_eq]

theorem filter_of_sameBlocks {p : GaussianFactor ℝ → Bool}
    (hp : ∀ f f', SameBlocks f f' → p f' = p f) :
    List.Forall₂ SameBlocks (fs.filter p) (fs'.filter p) :=
  List.rel_filter (fun _ _ hf => by simp only [hp _ _ hf]) h

/-- **The stacked rows agree**, up to the right-hand sides. -/
theorem agreeTo_stack {l : Layout} (hf : ∀ f ∈ fs, f.InLayout l) (hl : (l.map (·.1)).Nodup) :
    Mat.AgreeTo (Layout.width l) (Layout.width l + 1) (stack l fs).rows (stack l fs').rows := by
  have hf' : ∀ f ∈ fs', f.InLayout l := by
    clear hl
    induction h with
    | nil => exact fun f hf => absurd hf List.not_mem_nil
    | cons hsame _ ih =>
      obtain ⟨hfirst, hrest⟩ := List.forall_mem_cons.mp hf
      exact List.forall_mem_cons.mpr ⟨fun t ht => hfirst t (hsame.1 ▸ ht), ih hrest⟩
  rw [rows_stack hf hl, rows_stack hf' hl]
  clear hf'
  induction h with
  | nil => exact ⟨rfl, by simp, by simp, fun _ _ _ => rfl⟩
  | cons hsame _ ih =>
    obtain ⟨hfirst, hrest⟩ := List.forall_mem_cons.mp hf
    rw [List.flatMap_cons, List.flatMap_cons]
    exact (hsame.agreeTo hfirst hl).append (ih hrest)

end Pool

/-! ### Blocks of a triangular factor -/

section Blocks
variable {r r' : Mat ℝ} {v : ℕ} (hheight : r'.height = r.height) (hcols : r'.cols = r.cols)
  (hget : ∀ i, ∀ j < v, r'.get i j = r.get i j)
include hheight hcols hget

theorem block?_congr {i j n w : ℕ} (hj : j + w ≤ v) : r'.block? i j n w = r.block? i j n w := by
  by_cases hin : i + n ≤ r.height ∧ j + w ≤ r.cols
  · obtain ⟨b, hb⟩ := exists_block? (r := r) hin.1 hin.2
    obtain ⟨b', hb'⟩ := exists_block? (r := r') (hheight ▸ hin.1) (hcols ▸ hin.2)
    obtain ⟨-, -, hbh, hbw, hbget⟩ := Mat.get_of_block? hb
    obtain ⟨-, -, hbh', hbw', hbget'⟩ := Mat.get_of_block? hb'
    rw [hb, hb']
    refine congrArg some (Mat.ext_get (by rw [hbh, hbh']) (by rw [hbw, hbw']) fun p hp q hq => ?_)
    rw [hbh'] at hp
    rw [hbw'] at hq
    rw [hbget p hp q hq, hbget' p hp q hq, hget _ _ (by omega)]
  · rw [Mat.block?, Mat.block?, if_neg hin, if_neg (by rwa [hheight, hcols])]

theorem blocksOf_congr {i n j : ℕ} {l : Layout} (hl : j + Layout.width l ≤ v) :
    blocksOf r' i n l j = blocksOf r i n l j := by
  induction l generalizing j with
  | nil => rfl
  | cons e l ih =>
    rw [Layout.width_cons] at hl
    have hblock : r'.block? i j n e.2 = r.block? i j n e.2 :=
      block?_congr hheight hcols hget (by omega)
    have hrest := ih (j := j + e.2) (by omega)
    unfold blocksOf at hrest ⊢
    rw [Layout.ranges, List.mapM_cons, List.mapM_cons, hrest, hblock]

omit hheight hcols in
theorem isNegligible_congr {n : ℕ} (hn : n ≤ v) (scale : ℝ) :
    isNegligible r' n scale = isNegligible r n scale := by
  unfold isNegligible
  congr 1
  rw [Bool.eq_iff_iff, List.any_eq_true, List.any_eq_true]
  refine exists_congr fun i => and_congr_right fun hi => ?_
  rw [hget i i (lt_of_lt_of_le (List.mem_range.mp hi) hn)]

end Blocks

/-! ### One variable -/

section One
variable {k : Key} {dim : ℕ} {fs fs' : List (GaussianFactor ℝ)} {dims : KeyMap ℕ}
  {o : EliminationOrder} {others : Layout} (h : List.Forall₂ SameBlocks fs fs')
  (ho : (widths dims (separator o k fs) : LinearRun ℝ Layout).outcome = .ok others)
  (hc : Consistent dims fs) (hk : dims.get? k = some dim)
include h ho hc hk

theorem stack_congr :
    (stack ((k, dim) :: others) fs').columns 0 (dim + Layout.width others) =
        (stack ((k, dim) :: others) fs).columns 0 (dim + Layout.width others) ∧
      (stack ((k, dim) :: others) fs').triangular.height =
        (stack ((k, dim) :: others) fs).triangular.height ∧
      ∀ i, ∀ j < dim + Layout.width others, (stack ((k, dim) :: others) fs').triangular.get i j =
        (stack ((k, dim) :: others) fs).triangular.get i j := by
  have hagree := agreeTo_stack h (inLayout ho hc hk) (nodup_layout k dim ho)
  have hheight : (stack ((k, dim) :: others) fs').height = (stack ((k, dim) :: others) fs).height :=
    hagree.length
  have hcols : (stack ((k, dim) :: others) fs').cols = (stack ((k, dim) :: others) fs).cols := rfl
  refine ⟨Mat.ext_get ?_ rfl fun i _ j hj => ?_, ?_, fun i j hj => ?_⟩
  · simpa [Mat.height, Mat.columns] using hheight
  · have hj' : j < dim + Layout.width others := lt_of_lt_of_le hj (min_le_left _ _)
    rw [Mat.get_columns, Mat.get_columns, if_pos hj', if_pos hj', Nat.zero_add]
    exact hagree.get i j hj'
  · rw [(Mat.isTriangularFactor_triangular _).height, (Mat.isTriangularFactor_triangular _).height,
      hheight]
    rfl
  · exact Mat.get_triangular_congr (Nat.le_succ _) hcols hagree i hj

/-- **Whether a variable is determined** depends on the blocks only. -/
theorem IsDetermined.of_sameBlocks (hdet : IsDetermined k dim others fs) :
    IsDetermined k dim others fs' := by
  obtain ⟨hcols, -, hget⟩ := stack_congr h ho hc hk
  refine ⟨by rw [height_of_sameBlocks h]; exact hdet.1, ?_⟩
  rw [hcols, isNegligible_congr hget (Nat.le_add_right _ _)]
  exact hdet.2

omit ho in
/-- **Eliminating a variable leads to remainders with the same blocks.** -/
theorem exists_eliminateOne_of_sameBlocks {c : Conditional ℝ}
    {remainder : Option (GaussianFactor ℝ)}
    (hone : (eliminateOne k dim fs dims o).outcome = .ok (c, remainder)) :
    ∃ c' remainder', (eliminateOne k dim fs' dims o).outcome = .ok (c', remainder') ∧
      List.Forall₂ SameBlocks remainder.toList remainder'.toList := by
  obtain ⟨others, ho, -, -, -, -, -, -, -, -, -, hrem⟩ := eliminateOne_cases hone
  have hdet : IsDetermined k dim others fs := by
    by_contra hdet
    cases hone.symm.trans (eliminateOne_of_not_isDetermined ho hdet)
  have hseparator : separator o k fs' = separator o k fs := by
    rw [separator, separator, keys_of_sameBlocks h]
  have ho' : (widths dims (separator o k fs') : LinearRun ℝ Layout).outcome = .ok others :=
    hseparator ▸ ho
  obtain ⟨c', remainder', hone'⟩ :=
    exists_eliminateOne ho' (hdet.of_sameBlocks h ho hc hk)
  refine ⟨c', remainder', hone', ?_⟩
  obtain ⟨others', ho'', -, -, -, -, -, -, -, -, -, hrem'⟩ := eliminateOne_cases hone'
  obtain rfl : others' = others := Except.ok.inj (ho''.symm.trans ho')
  obtain ⟨-, hheight, hget⟩ := stack_congr h ho hc hk
  rw [height_of_sameBlocks h] at hrem'
  rcases hrem with ⟨rfl, hmin⟩ | ⟨f, rfl, -, hmin, hterms, hrhs⟩ <;>
    rcases hrem' with ⟨rfl, hmin'⟩ | ⟨f', rfl, -, hmin', hterms', hrhs'⟩
  · exact .nil
  · omega
  · omega
  · rw [blocksOf_congr hheight rfl hget (Nat.le_refl _)] at hterms'
    refine .cons ⟨Option.some.inj (hterms'.symm.trans hterms), ?_⟩ .nil
    rw [(columnOf_spec hrhs).1, (columnOf_spec hrhs').1]

end One

/-! ### All variables -/

/-- **An elimination succeeds for all right-hand sides or for none.** -/
theorem exists_eliminateAll_of_sameBlocks {dims : KeyMap ℕ} {o : EliminationOrder} {ks : List Key}
    {pool pool' : List (GaussianFactor ℝ)} (h : List.Forall₂ SameBlocks pool pool')
    (hc : Consistent dims pool) {a : List (Conditional ℝ) × List (GaussianFactor ℝ)}
    (hall : (eliminateAll dims o ks pool).outcome = .ok a) :
    ∃ a', (eliminateAll dims o ks pool').outcome = .ok a' ∧ List.Forall₂ SameBlocks a.2 a'.2 := by
  induction ks generalizing pool pool' a with
  | nil =>
    cases hall
    exact ⟨_, rfl, h⟩
  | cons k ks ih =>
    obtain ⟨dim, c, remainder, cs, hdim, hne, hone, hrest, -⟩ := eliminateAll_cons hall
    have hcg : Consistent dims (pool.filter (·.mentions k)) := hc.filter _
    have hgathered := filter_of_sameBlocks h fun f f' (hf : SameBlocks f f') => hf.mentions_eq k
    have hothers := filter_of_sameBlocks (p := fun f => !f.mentions k) h fun f f' hf =>
      congrArg not (hf.mentions_eq k)
    obtain ⟨c', remainder', hone', hremainder⟩ :=
      exists_eliminateOne_of_sameBlocks hgathered hcg hdim hone
    have hnext := consistent_next (k := k) hc (eliminateOne_spec hdim hone hcg).consistent
    obtain ⟨⟨cs', left'⟩, hrest', hleft⟩ := ih (List.rel_append hothers hremainder) hnext hrest
    refine ⟨(c' :: cs', left'), ?_, hleft⟩
    have hne' : ¬ (pool'.filter (·.mentions k)).isEmpty = true := by
      rw [List.isEmpty_iff, ← List.length_eq_zero_iff, ← hgathered.length_eq,
        List.length_eq_zero_iff]
      exact hne
    rw [eliminateAll, hdim]
    dsimp only
    rw [if_neg hne', Logged.outcome_bind_ok _ hone', Logged.outcome_bind_ok _ hrest']
    rfl

end Elimination

namespace GaussianGraph

/-- **A problem is eliminated for all right-hand sides or for none.** -/
theorem exists_eliminate_of_sameBlocks {g g' : GaussianGraph ℝ} {o : EliminationOrder}
    {net : BayesNet ℝ} (h : List.Forall₂ SameBlocks g.factors g'.factors)
    (hnet : (g.eliminate o).outcome = .ok net) : ∃ net', (g'.eliminate o).outcome = .ok net' := by
  obtain ⟨dims, hdims, hall⟩ := eliminate_eq_ok_iff.mp hnet
  obtain ⟨⟨cs', left'⟩, hall', hleft⟩ :=
    Elimination.exists_eliminateAll_of_sameBlocks h (dims_of_ok hdims).1 hall
  obtain rfl := List.forall₂_nil_left_iff.mp hleft
  have hdims' : g'.dims.outcome = .ok dims := by
    rw [GaussianGraph.dims, Elimination.terms_of_sameBlocks h]
    exact hdims
  exact ⟨⟨cs'⟩, eliminate_eq_ok_iff.mpr ⟨dims, hdims', hall'⟩⟩

end GaussianGraph

end Smoothing
