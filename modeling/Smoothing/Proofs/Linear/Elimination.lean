import Mathlib
import Smoothing.Linear.Elimination
import Smoothing.Proofs.Linear.BayesNet
import Smoothing.Proofs.Linear.Layout
import Smoothing.Proofs.Mat.Largest
import Smoothing.Proofs.Mat.Triangular

/-!
# Elimination keeps the problem

Eliminating a variable replaces the factors that mention it by a conditional and a factor on the
separator. The squares of all residuals together stay the same, up to a number that does not depend
on the point: the rows that are dropped have a right-hand side only (`eliminateOne_spec`). So after
all variables the sum of the squares of a problem is that of its Bayes net plus a number
(`GaussianGraph.eliminate_spec`), and the net is block triangular in the order of elimination.
-/

open Finset

namespace Smoothing

/-! ### The separator -/

namespace EliminationOrder

variable (o : EliminationOrder)

theorem precedes_irrefl (a : Key) : o.precedes a a = false := by
  unfold precedes
  cases o.position? a with
  | none => simp [Key.lt_irrefl]
  | some i => simp

theorem precedes_trans {a b c : Key} (hab : o.precedes a b = true) (hbc : o.precedes b c = true) :
    o.precedes a c = true := by
  unfold precedes at *
  cases ha : o.position? a <;> cases hb : o.position? b <;> cases hc : o.position? c <;>
    simp_all only [decide_eq_true_eq, Bool.false_eq_true]
  · exact Key.lt_trans hab hbc
  · exact Nat.lt_trans hab hbc

theorem position?_inj {a b : Key} {i : ℕ} (ha : o.position? a = some i)
    (hb : o.position? b = some i) : a = b := by
  unfold position? at ha hb
  obtain ⟨hi, ha', -⟩ := List.idxOf?_eq_some_iff.mp ha
  obtain ⟨_, hb', -⟩ := List.idxOf?_eq_some_iff.mp hb
  rw [← ha', ← hb']

theorem precedes_total {a b : Key} (hne : a ≠ b) (hab : ¬ o.precedes a b = true) :
    o.precedes b a = true := by
  unfold precedes at *
  rcases ha : o.position? a with _ | i <;> rcases hb : o.position? b with _ | j <;>
    simp_all only [decide_eq_true_eq, not_true_eq_false, not_lt]
  · exact Key.lt_of_not_lt hab hne
  · refine lt_of_le_of_ne hab ?_
    rintro rfl
    exact hne (o.position?_inj ha hb)

theorem mem_place {j k : Key} {ks : List Key} : j ∈ o.place k ks ↔ j = k ∨ j ∈ ks := by
  induction ks with
  | nil => simp [place]
  | cons i ks ih =>
    rw [place]
    split_ifs with h h'
    · subst h
      simp
    · simp
    · rw [List.mem_cons, ih, List.mem_cons]
      tauto

theorem pairwise_place {k : Key} {ks : List Key}
    (h : ks.Pairwise fun a b => o.precedes a b = true) :
    (o.place k ks).Pairwise fun a b => o.precedes a b = true := by
  induction ks with
  | nil => simp [place]
  | cons i ks ih =>
    have ⟨hi, hks⟩ := List.pairwise_cons.mp h
    rw [place]
    split_ifs with hk hp
    · exact h
    · refine List.pairwise_cons.mpr ⟨fun j hj => ?_, h⟩
      rcases List.mem_cons.mp hj with rfl | hj
      · exact hp
      · exact o.precedes_trans hp (hi j hj)
    · refine List.pairwise_cons.mpr ⟨fun j hj => ?_, ih hks⟩
      rcases o.mem_place.mp hj with rfl | hj
      · exact o.precedes_total (Ne.symm hk) hp
      · exact hi j hj

theorem mem_arrange {j : Key} {ks : List Key} : j ∈ o.arrange ks ↔ j ∈ ks := by
  unfold arrange
  induction ks with
  | nil => simp
  | cons k ks ih => rw [List.foldr_cons, mem_place, ih, List.mem_cons]

theorem nodup_arrange (ks : List Key) : (o.arrange ks).Nodup := by
  have hp : (o.arrange ks).Pairwise fun a b => o.precedes a b = true := by
    unfold arrange
    induction ks with
    | nil => exact List.Pairwise.nil
    | cons k ks ih => exact o.pairwise_place ih
  refine hp.imp fun {a b} hab he => ?_
  rw [he, o.precedes_irrefl] at hab
  cases hab

end EliminationOrder

namespace Elimination

theorem mem_separator {α : Type} {o : EliminationOrder} {k j : Key} {fs : List (GaussianFactor α)} :
    j ∈ separator o k fs ↔ j ≠ k ∧ ∃ f ∈ fs, j ∈ f.keys := by
  unfold separator
  rw [o.mem_arrange, List.mem_filter, List.mem_flatMap]
  simp [and_comm]

theorem widths_of_ok {α : Type} {dims : KeyMap ℕ} {ks : List Key} {l : Layout}
    (h : (widths dims ks : LinearRun α Layout).outcome = .ok l) :
    l.map (·.1) = ks ∧ ∀ e ∈ l, dims.get? e.1 = some e.2 := by
  induction ks generalizing l with
  | nil =>
    cases h
    simp
  | cons k ks ih =>
    rw [widths] at h
    split at h
    · exact absurd h Logged.outcome_fail_ne_ok
    · next w hw =>
      obtain ⟨rest, hrest, h⟩ := Logged.outcome_bind_eq_ok.mp h
      cases h
      obtain ⟨hk, hd⟩ := ih hrest
      refine ⟨by rw [List.map_cons, hk], fun e he => ?_⟩
      rcases List.mem_cons.mp he with rfl | he
      · exact hw
      · exact hd e he

theorem widths_eq_pure {α : Type} {dims : KeyMap ℕ} {ks : List Key} {l : Layout}
    (h : (widths dims ks : LinearRun α Layout).outcome = .ok l) :
    widths dims ks = (pure l : LinearRun α Layout) := by
  induction ks generalizing l with
  | nil =>
    cases h
    rfl
  | cons k ks ih =>
    rw [widths] at h ⊢
    split at h
    · exact absurd h Logged.outcome_fail_ne_ok
    · next w hw =>
      obtain ⟨rest, hrest, h⟩ := Logged.outcome_bind_eq_ok.mp h
      cases h
      rw [ih hrest, pure_bind]

/-! ### Blocks of the triangular factor -/

section Blocks
variable {α : Type} {r : Mat α} {i h : ℕ}

theorem blocksOf_nil (r : Mat α) (i h start : ℕ) : blocksOf r i h [] start = some [] := rfl

theorem blocksOf_cons_eq_some {e : Key × ℕ} {l : Layout} {start : ℕ} {bs : List (Key × Mat α)}
    (hb : blocksOf r i h (e :: l) start = some bs) :
    ∃ b bs', r.block? i start h e.2 = some b ∧ blocksOf r i h l (start + e.2) = some bs' ∧
      bs = (e.1, b) :: bs' := by
  unfold blocksOf at hb ⊢
  rw [Layout.ranges, List.mapM_cons] at hb
  simp only [Option.bind_eq_bind, Option.bind_eq_some_iff, Option.map_eq_some_iff, Option.pure_def,
    Option.some.injEq] at hb
  obtain ⟨_, ⟨b, hb1, rfl⟩, bs', hb2, rfl⟩ := hb
  exact ⟨b, bs', hb1, hb2, rfl⟩

variable [Scalar α]

theorem blocksOf_shape {l : Layout} {start : ℕ} {bs : List (Key × Mat α)}
    (hb : blocksOf r i h l start = some bs) :
    (∀ t ∈ bs, t.2.height = h) ∧ (bs.map fun t => (t.1, t.2.cols)) = l := by
  induction l generalizing start bs with
  | nil =>
    rw [blocksOf_nil] at hb
    cases hb
    exact ⟨by simp, rfl⟩
  | cons e l ih =>
    obtain ⟨b, bs', hblock, hrest, rfl⟩ := blocksOf_cons_eq_some hb
    obtain ⟨hh, hl⟩ := ih hrest
    obtain ⟨-, -, hbh, hbw, -⟩ := Mat.get_of_block? hblock
    exact ⟨List.forall_mem_cons.mpr ⟨hbh, hh⟩, by rw [List.map_cons, hl, hbw]⟩

theorem keys_of_blocksOf {l : Layout} {start : ℕ} {bs : List (Key × Mat α)}
    (hb : blocksOf r i h l start = some bs) : bs.map (·.1) = l.map (·.1) := by
  rw [← (blocksOf_shape hb).2, List.map_map]
  rfl

theorem rowValue_blocksOf {r : Mat ℝ} {l : Layout} {start : ℕ} {bs : List (Key × Mat ℝ)}
    (hb : blocksOf r i h l start = some bs) (p : Key → ℕ → ℝ) {a : ℕ} (ha : a < h) :
    rowValue bs p a =
      ∑ j ∈ range (Layout.width l), r.get (i + a) (start + j) * (Layout.lay l p).getD j 0 := by
  induction l generalizing start bs with
  | nil =>
    rw [blocksOf_nil] at hb
    cases hb
    simp [Layout.width]
  | cons e l ih =>
    obtain ⟨b, bs', hblock, hrest, rfl⟩ := blocksOf_cons_eq_some hb
    obtain ⟨-, -, -, hbw, hget⟩ := Mat.get_of_block? hblock
    have hlen : ((List.range e.2).map (p e.1)).length = e.2 := by simp
    rw [rowValue_cons, ih hrest, hbw, Layout.width_cons, sum_range_add, Layout.lay_cons]
    congr 1
    · refine sum_congr rfl fun j hj => ?_
      have hj := mem_range.mp hj
      rw [hget a ha j hj, List.getD_append _ _ _ _ (by rwa [hlen]), getD_map_range _ hj]
    · refine sum_congr rfl fun j _ => ?_
      rw [List.getD_append_right _ _ _ _ (by rw [hlen]; omega), hlen, Nat.add_sub_cancel_left,
        Nat.add_assoc]

theorem columnOf_spec {j : ℕ} {d : Vec α} (hd : columnOf r i h j = some d) :
    d.size = h ∧ ∀ a < h, d.get a = r.get (i + a) j := by
  unfold columnOf at hd
  obtain ⟨b, hb, rfl⟩ := Option.map_eq_some_iff.mp hd
  obtain ⟨-, -, hbh, -, hget⟩ := Mat.get_of_block? hb
  have hlen : b.rows.length = h := hbh
  refine ⟨by simpa using hlen, fun a ha => ?_⟩
  rw [Vec.get_eq_getElem (by simpa [hlen] using ha), List.getElem_map, ← Nat.add_zero j,
    ← hget a ha 0 Nat.one_pos, Mat.get, List.getD_eq_getElem _ _ (by rwa [hlen])]

end Blocks

/-! ### The pivots -/

theorem pivotTolerance_pos : (0 : ℝ) < pivotTolerance := by
  unfold pivotTolerance
  norm_num

theorem get_ne_zero_of_not_isNegligible {r : Mat ℝ} {n : ℕ} {scale : ℝ} (hs : 0 ≤ scale)
    (h : ¬ isNegligible r n scale = true) : ∀ i < n, r.get i i ≠ 0 := by
  intro i hi h0
  refine h ?_
  unfold isNegligible
  rw [Bool.or_eq_true, List.any_eq_true]
  refine .inr ⟨i, List.mem_range.mpr hi, decide_eq_true ?_⟩
  rw [h0, Scalar.abs_real, abs_zero]
  exact mul_nonneg pivotTolerance_pos.le hs

/-! ### The stacked rows -/

theorem height_stack {α : Type} [Scalar α] (l : Layout) (fs : List (GaussianFactor α)) :
    (stack l fs).height = GaussianGraph.height ⟨fs⟩ := by
  rw [Mat.height, stack, Mat.ofRows, List.length_map]
  unfold GaussianGraph.height
  induction fs with
  | nil => rfl
  | cons f fs ih =>
    rw [List.flatMap_cons, List.length_append, ih, GaussianFactor.length_augmentedRows]
    rfl

section Stack
variable {fs : List (GaussianFactor ℝ)} {l : Layout} (hf : ∀ f ∈ fs, f.InLayout l)
  (hl : (l.map (·.1)).Nodup)
include hf hl

theorem rows_stack : (stack l fs).rows = fs.flatMap (·.augmentedRows l) := by
  refine Mat.rows_ofRows fun r hr => ?_
  obtain ⟨f, hfs, hr⟩ := List.mem_flatMap.mp hr
  exact GaussianFactor.size_augmentedRows (hf f hfs) hl r hr

theorem rowsSq_stack (p : Key → ℕ → ℝ) :
    rowsSq (stack l fs).rows ⟨Layout.lay l p ++ [-1]⟩ = factorsSq fs p := by
  rw [rows_stack hf hl]
  induction fs with
  | nil => rfl
  | cons f fs ih =>
    rw [List.flatMap_cons, rowsSq_append, factorsSq_cons,
      GaussianFactor.rowsSq_augmentedRows (hf f List.mem_cons_self) hl,
      ih fun f' hf' => hf f' (List.mem_cons_of_mem _ hf')]

end Stack

theorem sum_row (k : Key) (dim : ℕ) (l : Layout) (p : Key → ℕ → ℝ) (ρ : ℕ → ℝ) :
    ∑ j ∈ range (dim + Layout.width l + 1),
        ρ j * (⟨Layout.lay ((k, dim) :: l) p ++ [-1]⟩ : Vec ℝ).get j =
      ∑ j ∈ range dim, ρ j * p k j +
        ∑ j ∈ range (Layout.width l), ρ (dim + j) * (Layout.lay l p).getD j 0 -
          ρ (dim + Layout.width l) := by
  have hlen : (Layout.lay ((k, dim) :: l) p).length = dim + Layout.width l := by
    rw [Layout.length_lay, Layout.width_cons]
  have hrange : ((List.range dim).map (p k)).length = dim := by simp
  have hlast : (⟨Layout.lay ((k, dim) :: l) p ++ [-1]⟩ : Vec ℝ).get (dim + Layout.width l) =
      -1 := by
    change (Layout.lay ((k, dim) :: l) p ++ [-1]).getD _ 0 = -1
    rw [List.getD_append_right _ _ _ _ hlen.le, hlen, Nat.sub_self, List.getD_cons_zero]
  have hinit : ∀ j < dim + Layout.width l, (⟨Layout.lay ((k, dim) :: l) p ++ [-1]⟩ : Vec ℝ).get j =
      ((List.range dim).map (p k) ++ Layout.lay l p).getD j 0 := by
    intro j hj
    change (Layout.lay ((k, dim) :: l) p ++ [-1]).getD j 0 = _
    rw [List.getD_append _ _ _ _ (by rwa [hlen]), Layout.lay_cons]
  rw [sum_range_succ, hlast, sum_range_add]
  have h1 : ∑ j ∈ range dim, ρ j * (⟨Layout.lay ((k, dim) :: l) p ++ [-1]⟩ : Vec ℝ).get j =
      ∑ j ∈ range dim, ρ j * p k j := by
    refine sum_congr rfl fun j hj => ?_
    have hj := mem_range.mp hj
    rw [hinit j (by omega), List.getD_append _ _ _ _ (by rwa [hrange]), getD_map_range _ hj]
  have h2 : ∑ j ∈ range (Layout.width l),
      ρ (dim + j) * (⟨Layout.lay ((k, dim) :: l) p ++ [-1]⟩ : Vec ℝ).get (dim + j) =
        ∑ j ∈ range (Layout.width l), ρ (dim + j) * (Layout.lay l p).getD j 0 := by
    refine sum_congr rfl fun j hj => ?_
    have hj := mem_range.mp hj
    rw [hinit _ (by omega), List.getD_append_right _ _ _ _ (by rw [hrange]; omega), hrange,
      Nat.add_sub_cancel_left]
  rw [h1, h2]
  ring

/-! ### One variable -/

theorem zip_map_fst_snd {β : Type} (ts : List (Key × β)) :
    List.zip (ts.map (·.1)) (ts.map (·.2)) = ts := by
  simpa [List.unzip_eq_map] using List.zip_unzip ts

/-- What eliminating a variable from the factors that mention it leads to. -/
structure Eliminated (dims : KeyMap ℕ) (k : Key) (fs : List (GaussianFactor ℝ)) (c : Conditional ℝ)
    (remainder : Option (GaussianFactor ℝ)) : Prop where
  key : c.key = k
  wellFormed : c.WellFormed dims
  parent_mem : ∀ t ∈ c.parents, t.1 ≠ k ∧ ∃ f ∈ fs, t.1 ∈ f.keys
  consistent : Consistent dims remainder.toList
  key_mem : ∀ f ∈ remainder.toList, ∀ j ∈ f.keys, j ≠ k ∧ ∃ f' ∈ fs, j ∈ f'.keys
  keys_ne_nil : ∀ f ∈ remainder.toList, f.keys ≠ []
  /-- The squares stay the same, up to a number. -/
  sq : ∃ e, ∀ p, factorsSq fs p = c.sq p + factorsSq remainder.toList p + e

theorem eliminateOne_cases {α : Type} [Scalar α] {k : Key} {dim : ℕ} {fs : List (GaussianFactor α)}
    {dims : KeyMap ℕ} {o : EliminationOrder} {c : Conditional α}
    {remainder : Option (GaussianFactor α)}
    (h : (eliminateOne k dim fs dims o).outcome = .ok (c, remainder)) :
    ∃ others, (widths dims (separator o k fs) : LinearRun α Layout).outcome = .ok others ∧
      dim ≤ GaussianGraph.height ⟨fs⟩ ∧
      ¬ isNegligible (stack ((k, dim) :: others) fs).triangular dim
        ((stack ((k, dim) :: others) fs).columns 0 (dim + Layout.width others)).amax = true ∧
      ∃ diagonal parents d,
        (stack ((k, dim) :: others) fs).triangular.block? 0 0 dim dim = some diagonal ∧
        blocksOf (stack ((k, dim) :: others) fs).triangular 0 dim others dim = some parents ∧
        columnOf (stack ((k, dim) :: others) fs).triangular 0 dim (dim + Layout.width others) =
          some d ∧
        c = ⟨k, diagonal, parents, d⟩ ∧
        ((remainder = none ∧ min (GaussianGraph.height ⟨fs⟩) (dim + Layout.width others) = dim) ∨
          ∃ f, remainder = some f ∧ others ≠ [] ∧
          dim < min (GaussianGraph.height ⟨fs⟩) (dim + Layout.width others) ∧
            blocksOf (stack ((k, dim) :: others) fs).triangular dim
              (min (GaussianGraph.height ⟨fs⟩) (dim + Layout.width others) - dim) others dim =
                some f.terms ∧
            columnOf (stack ((k, dim) :: others) fs).triangular dim
              (min (GaussianGraph.height ⟨fs⟩) (dim + Layout.width others) - dim)
                (dim + Layout.width others) = some f.rhs) := by
  unfold eliminateOne at h
  obtain ⟨others, hothers, h⟩ := Logged.outcome_bind_eq_ok.mp h
  have hwidth : Layout.width ((k, dim) :: others) = dim + Layout.width others := rfl
  simp only [hwidth] at h
  split at h
  · exact absurd h LinearError.outcome_stop_ne_ok
  next hrows =>
  split at h
  · obtain ⟨_, -, h⟩ := Logged.outcome_bind_eq_ok.mp h
    exact absurd h LinearError.outcome_stop_ne_ok
  next hpivot =>
  obtain ⟨diagonal, hdiag, h⟩ := Logged.outcome_bind_eq_ok.mp h
  obtain ⟨parents, hpar, h⟩ := Logged.outcome_bind_eq_ok.mp h
  obtain ⟨d, hd, h⟩ := Logged.outcome_bind_eq_ok.mp h
  rw [Logged.outcome_fromOption_eq_ok] at hdiag hpar hd
  refine ⟨others, hothers, not_lt.mp hrows, hpivot, diagonal, parents, d, hdiag, hpar, hd, ?_⟩
  split at h
  · next hnone =>
    cases h
    refine ⟨rfl, .inl ⟨rfl, ?_⟩⟩
    rw [Bool.or_eq_true, List.isEmpty_iff, beq_iff_eq] at hnone
    rcases hnone with rfl | hnone
    · have : Layout.width [] = 0 := rfl
      omega
    · omega
  · next hsome =>
    rw [Bool.or_eq_true, List.isEmpty_iff, beq_iff_eq, not_or] at hsome
    obtain ⟨hothers', hremaining⟩ := hsome
    obtain ⟨blocks, hblocks, h⟩ := Logged.outcome_bind_eq_ok.mp h
    obtain ⟨b, hb, h⟩ := Logged.outcome_bind_eq_ok.mp h
    obtain ⟨f, hf, h⟩ := Logged.outcome_bind_eq_ok.mp h
    rw [Logged.outcome_fromOption_eq_ok] at hblocks hb
    rw [Logged.outcome_lift_eq_ok] at hf
    cases h
    obtain ⟨-, hterms, hrhs⟩ := GaussianFactor.ofBlocks?_eq_ok_iff.mp hf
    rw [zip_map_fst_snd] at hterms
    exact ⟨rfl, .inr ⟨f, rfl, hothers', by omega, by rw [hterms, hblocks], by rw [hrhs, hb]⟩⟩

/-- A step leaves no remainder if it has no more rows than its variable has columns, or if its
separator has none. -/
theorem eq_none_iff {α : Type} [Scalar α] {k : Key} {dim : ℕ} {fs : List (GaussianFactor α)}
    {dims : KeyMap ℕ} {o : EliminationOrder} {others : Layout} {c : Conditional α}
    {remainder : Option (GaussianFactor α)}
    (h : (eliminateOne k dim fs dims o).outcome = .ok (c, remainder))
    (ho : (widths dims (separator o k fs) : LinearRun α Layout).outcome = .ok others) :
    remainder = none ↔ GaussianGraph.height ⟨fs⟩ ≤ dim ∨ Layout.width others = 0 := by
  obtain ⟨others', ho', hrows, -, -, -, -, -, -, -, -, hrem⟩ := eliminateOne_cases h
  obtain rfl : others' = others := Except.ok.inj (ho'.symm.trans ho)
  rcases hrem with ⟨rfl, hmin⟩ | ⟨f, rfl, -, hmin, -⟩
  · simp only [true_iff]
    omega
  · simp only [reduceCtorEq, false_iff]
    omega

theorem nodup_layout {α : Type} (k : Key) (dim : ℕ) {fs : List (GaussianFactor α)} {dims : KeyMap ℕ}
    {o : EliminationOrder} {others : Layout}
    (ho : (widths dims (separator o k fs) : LinearRun α Layout).outcome = .ok others) :
    (((k, dim) :: others).map (·.1)).Nodup := by
  obtain ⟨hkeys, -⟩ := widths_of_ok ho
  rw [List.map_cons, hkeys, List.nodup_cons]
  refine ⟨fun hk => ?_, o.nodup_arrange _⟩
  exact (mem_separator.mp hk).1 rfl

section Layout
variable {α : Type} {k : Key} {dim : ℕ} {fs : List (GaussianFactor α)} {dims : KeyMap ℕ}
  {o : EliminationOrder} {others : Layout}
  (ho : (widths dims (separator o k fs) : LinearRun α Layout).outcome = .ok others)
include ho

theorem inLayout (hc : Consistent dims fs) (hk : dims.get? k = some dim) :
    ∀ f ∈ fs, f.InLayout ((k, dim) :: others) := by
  obtain ⟨hkeys, hd⟩ := widths_of_ok ho
  intro f hf t ht
  have hdt := hc f hf t ht
  by_cases htk : t.1 = k
  · rw [htk, hk] at hdt
    rw [htk, ← Option.some.inj hdt]
    exact List.mem_cons_self
  · have hsep : t.1 ∈ separator o k fs :=
      mem_separator.mpr ⟨htk, f, hf, List.mem_map.mpr ⟨t, ht, rfl⟩⟩
    rw [← hkeys] at hsep
    obtain ⟨e, he, het⟩ := List.mem_map.mp hsep
    have hde := hd e he
    rw [het, hdt] at hde
    refine List.mem_cons_of_mem _ ?_
    rw [← het, Option.some.inj hde]
    exact he

theorem blocksOf_separator [Scalar α] {r : Mat α} {i h start : ℕ} {bs : List (Key × Mat α)}
    (hb : blocksOf r i h others start = some bs) : ∀ t ∈ bs,
      dims.get? t.1 = some t.2.cols ∧ t.1 ≠ k ∧ ∃ f ∈ fs, t.1 ∈ f.keys := by
  obtain ⟨hkeys, hd⟩ := widths_of_ok ho
  intro t ht
  have hmem : (t.1, t.2.cols) ∈ others := by
    rw [← (blocksOf_shape hb).2]
    exact List.mem_map.mpr ⟨t, ht, rfl⟩
  have hsep : t.1 ∈ separator o k fs := by
    rw [← hkeys]
    exact List.mem_map.mpr ⟨_, hmem, rfl⟩
  exact ⟨hd _ hmem, mem_separator.mp hsep⟩

end Layout

section Keys
variable {α : Type} [Scalar α] {k : Key} {dim : ℕ} {fs : List (GaussianFactor α)} {dims : KeyMap ℕ}
  {o : EliminationOrder} {c : Conditional α} {remainder : Option (GaussianFactor α)}
  (h : (eliminateOne k dim fs dims o).outcome = .ok (c, remainder))
include h

/-- **The separator is passed on.** Its keys are those of the parents of the conditional, and those
of the remainder if there is one. -/
theorem keys_of_eliminateOne : c.key = k ∧ c.parentKeys = separator o k fs ∧
    ∀ f ∈ remainder.toList, f.keys = separator o k fs ∧ f.keys ≠ [] := by
  obtain ⟨others, hothers, -, -, diagonal, parents, d, -, hpar, -, rfl, hrem⟩ :=
    eliminateOne_cases h
  have hothersKeys := (widths_of_ok hothers).1
  have hkeys : ∀ {r : Mat α} {i n start : ℕ} {bs : List (Key × Mat α)},
      blocksOf r i n others start = some bs →
      bs.map (·.1) = separator o k fs := fun hb => (keys_of_blocksOf hb).trans hothersKeys
  refine ⟨rfl, hkeys hpar, fun f hf => ?_⟩
  rcases hrem with ⟨rfl, -⟩ | ⟨f', rfl, hne, -, hterms, -⟩
  · cases hf
  · rw [List.mem_singleton.mp hf]
    have hf' : f'.keys = separator o k fs := hkeys hterms
    refine ⟨hf', fun hnil => hne ?_⟩
    rw [hf', ← hothersKeys, List.map_eq_nil_iff] at hnil
    exact hnil

theorem consistent_of_eliminateOne : Consistent dims remainder.toList := by
  obtain ⟨others, hothers, -, -, diagonal, parents, d, -, -, -, -, hrem⟩ := eliminateOne_cases h
  intro f hf t ht
  rcases hrem with ⟨rfl, -⟩ | ⟨f', rfl, -, -, hterms, -⟩
  · cases hf
  · rw [List.mem_singleton.mp hf] at ht
    exact (blocksOf_separator hothers hterms t ht).1

end Keys

/-- The squares of the rows of the conditional, of the remainder and of the dropped rows. -/
theorem sum_sq_split {M H dim : ℕ} (hM : dim ≤ M) (hH : M ≤ H) (ρ : ℕ → ℝ) :
    ∑ a ∈ range H, ρ a ^ 2 = ∑ a ∈ range dim, ρ a ^ 2 + ∑ a ∈ range (M - dim), ρ (dim + a) ^ 2 +
      ∑ a ∈ range (H - M), ρ (M + a) ^ 2 := by
  obtain ⟨m, rfl⟩ := Nat.exists_eq_add_of_le hM
  obtain ⟨h, rfl⟩ := Nat.exists_eq_add_of_le hH
  rw [sum_range_add, sum_range_add, Nat.add_sub_cancel_left, Nat.add_sub_cancel_left]

/-- The value of a row of the triangular factor at a point. -/
noncomputable def rowAt (r : Mat ℝ) (k : Key) (dim : ℕ) (l : Layout) (p : Key → ℕ → ℝ) (i : ℕ) :
    ℝ :=
  ∑ j ∈ range dim, r.get i j * p k j +
    ∑ j ∈ range (Layout.width l), r.get i (dim + j) * (Layout.lay l p).getD j 0 -
      r.get i (dim + Layout.width l)

section Rows
variable {r : Mat ℝ} {k : Key} {dim : ℕ} {l : Layout}

theorem factorsSq_eq_sum_rowAt {fs : List (GaussianFactor ℝ)}
    (hf : ∀ f ∈ fs, f.InLayout ((k, dim) :: l)) (hl : (((k, dim) :: l).map (·.1)).Nodup)
    (hr : Mat.IsTriangularFactor (stack ((k, dim) :: l) fs) r) (p : Key → ℕ → ℝ) :
    factorsSq fs p = ∑ i ∈ range (min (GaussianGraph.height ⟨fs⟩) (dim + Layout.width l + 1)),
      rowAt r k dim l p i ^ 2 := by
  have hcols : (stack ((k, dim) :: l) fs).cols = dim + Layout.width l + 1 := rfl
  have hsize : (⟨Layout.lay ((k, dim) :: l) p ++ [-1]⟩ : Vec ℝ).size =
      (stack ((k, dim) :: l) fs).cols := by
    rw [hcols, Vec.size_mk, List.length_append, Layout.length_lay, List.length_singleton,
      Layout.width_cons]
  rw [← rowsSq_stack hf hl, ← Mat.normSq_mulVec, ← hr.normSq _ hsize, Vec.normSq_eq_sum _ le_rfl,
    Mat.size_mulVec, hr.height, height_stack, hcols]
  refine sum_congr rfl fun i _ => ?_
  rw [Mat.get_mulVec, hr.cols, hcols, sum_row, rowAt]

theorem wellFormed_of_blocks {dims : KeyMap ℕ} {diagonal : Mat ℝ} {parents : List (Key × Mat ℝ)}
    {d : Vec ℝ} (hupper : ∀ i j, j < i → r.get i j = 0) (hpivot : ∀ i < dim, r.get i i ≠ 0)
    (hk : dims.get? k = some dim) (hdiag : r.block? 0 0 dim dim = some diagonal)
    (hpar : blocksOf r 0 dim l dim = some parents)
    (hd : columnOf r 0 dim (dim + Layout.width l) = some d)
    (hdims : ∀ t ∈ parents, dims.get? t.1 = some t.2.cols) :
    Conditional.WellFormed dims ⟨k, diagonal, parents, d⟩ := by
  obtain ⟨-, -, hdh, hdw, hget⟩ := Mat.get_of_block? hdiag
  have hdim : Conditional.dim ⟨k, diagonal, parents, d⟩ = dim := (columnOf_spec hd).1
  refine ⟨by rw [hdim]; exact hk, ?_, by rw [hdim]; exact (blocksOf_shape hpar).1, hdims⟩
  rw [hdim]
  refine ⟨hdh, hdw, fun i j hij => ?_, fun i hi => ?_⟩
  · by_cases hi : i < dim
    · rw [hget i hi j (by omega), Nat.zero_add, Nat.zero_add]
      exact hupper i j hij
    · exact Mat.get_of_height_le (by rw [hdh]; omega) j
  · rw [hget i hi i hi, Nat.zero_add]
    exact hpivot i hi

theorem rowAt_eq_conditional {dims : KeyMap ℕ} {diagonal : Mat ℝ} {parents : List (Key × Mat ℝ)}
    {d : Vec ℝ} (hwf : Conditional.WellFormed dims ⟨k, diagonal, parents, d⟩)
    (hdiag : r.block? 0 0 dim dim = some diagonal) (hpar : blocksOf r 0 dim l dim = some parents)
    (hd : columnOf r 0 dim (dim + Layout.width l) = some d) (p : Key → ℕ → ℝ) {i : ℕ}
    (hi : i < dim) :
    rowAt r k dim l p i = Conditional.value ⟨k, diagonal, parents, d⟩ p i - d.get i := by
  obtain ⟨-, -, -, -, hget⟩ := Mat.get_of_block? hdiag
  obtain ⟨hdim, hdv⟩ := columnOf_spec hd
  rw [hwf.value_eq, show Conditional.dim ⟨k, diagonal, parents, d⟩ = dim from hdim,
    rowValue_blocksOf hpar p hi, hdv i hi, Nat.zero_add, rowAt]
  congr 2
  refine sum_congr rfl fun j hj => ?_
  rw [hget i hi j (mem_range.mp hj), Nat.zero_add, Nat.zero_add]

/-- The rows below them, as long as there are columns of the separator, are those of the
remainder. -/
theorem rowAt_eq_remainder {f : GaussianFactor ℝ} {h : ℕ} (hupper : ∀ i j, j < i → r.get i j = 0)
    (hterms : blocksOf r dim h l dim = some f.terms)
    (hrhs : columnOf r dim h (dim + Layout.width l) = some f.rhs) (p : Key → ℕ → ℝ) {i : ℕ}
    (hi : i < h) : rowAt r k dim l p (dim + i) = f.value p i - f.rhs.get i := by
  have hzero : ∑ j ∈ range dim, r.get (dim + i) j * p k j = 0 := sum_eq_zero fun j hj => by
    have := mem_range.mp hj
    rw [hupper _ j (by omega), zero_mul]
  rw [GaussianFactor.value, rowValue_blocksOf hterms p hi, (columnOf_spec hrhs).2 i hi, rowAt,
    hzero, zero_add]

/-- The rows below those have a right-hand side only. -/
theorem rowAt_of_width_le (hupper : ∀ i j, j < i → r.get i j = 0) (p : Key → ℕ → ℝ) {i : ℕ}
    (hi : dim + Layout.width l ≤ i) : rowAt r k dim l p i = -r.get i (dim + Layout.width l) := by
  have h1 : ∑ j ∈ range dim, r.get i j * p k j = 0 := sum_eq_zero fun j hj => by
    have := mem_range.mp hj
    rw [hupper i j (by omega), zero_mul]
  have h2 : ∑ j ∈ range (Layout.width l), r.get i (dim + j) * (Layout.lay l p).getD j 0 = 0 :=
    sum_eq_zero fun j hj => by
      have := mem_range.mp hj
      rw [hupper i _ (by omega), zero_mul]
  rw [rowAt, h1, h2, zero_add, zero_sub]

end Rows

section One
variable {k : Key} {dim : ℕ} {fs : List (GaussianFactor ℝ)} {dims : KeyMap ℕ} {o : EliminationOrder}
  {c : Conditional ℝ} {remainder : Option (GaussianFactor ℝ)} (hk : dims.get? k = some dim)
  (h : (eliminateOne k dim fs dims o).outcome = .ok (c, remainder))
include hk h

theorem wellFormed_of_eliminateOne : c.WellFormed dims := by
  obtain ⟨others, hothers, -, hpivot, diagonal, parents, d, hdiag, hpar, hd, rfl, -⟩ :=
    eliminateOne_cases h
  have hfac := Mat.isTriangularFactor_triangular (stack ((k, dim) :: others) fs)
  exact wellFormed_of_blocks hfac.upper (get_ne_zero_of_not_isNegligible (Mat.amax_nonneg _) hpivot)
    hk hdiag hpar hd fun t ht => (blocksOf_separator hothers hpar t ht).1

/-- **Eliminating a variable keeps the squares of its factors**, up to a number that is not
negative: the square of the right-hand side of the row that is dropped. -/
theorem exists_sq_of_eliminateOne (hc : Consistent dims fs) :
    ∃ e, 0 ≤ e ∧ ∀ p, factorsSq fs p = c.sq p + factorsSq remainder.toList p + e := by
  have hwf := wellFormed_of_eliminateOne hk h
  obtain ⟨others, hothers, hrows, -, diagonal, parents, d, hdiag, hpar, hd, rfl, hrem⟩ :=
    eliminateOne_cases h
  have hfac := Mat.isTriangularFactor_triangular (stack ((k, dim) :: others) fs)
  have hsum := factorsSq_eq_sum_rowAt (inLayout hothers hc hk) (nodup_layout k dim hothers) hfac
  have hupper := hfac.upper
  generalize (stack ((k, dim) :: others) fs).triangular = r at *
  generalize GaussianGraph.height ⟨fs⟩ = m at *
  have hcond : ∀ p, ∑ i ∈ range dim, rowAt r k dim others p i ^ 2 =
      Conditional.sq ⟨k, diagonal, parents, d⟩ p := by
    intro p
    rw [Conditional.sq, show Conditional.dim ⟨k, diagonal, parents, d⟩ = dim
      from (columnOf_spec hd).1]
    refine sum_congr rfl fun i hi => ?_
    rw [rowAt_eq_conditional hwf hdiag hpar hd p (mem_range.mp hi)]
  have hremainder : ∀ p, ∑ i ∈ range (min m (dim + Layout.width others) - dim),
      rowAt r k dim others p (dim + i) ^ 2 = factorsSq remainder.toList p := by
    intro p
    rcases hrem with ⟨rfl, hmin⟩ | ⟨f, rfl, -, -, hterms, hrhs⟩
    · rw [hmin, Nat.sub_self, range_zero, sum_empty, Option.toList_none, factorsSq_nil]
    · have hfh : f.height = min m (dim + Layout.width others) - dim := (columnOf_spec hrhs).1
      rw [Option.toList_some, factorsSq_cons, factorsSq_nil, add_zero, GaussianFactor.sq, hfh]
      refine sum_congr rfl fun i hi => ?_
      rw [rowAt_eq_remainder hupper hterms hrhs p (mem_range.mp hi)]
  -- at most one row is dropped, and it has a right-hand side only
  refine ⟨∑ i ∈ range (min m (dim + Layout.width others + 1) - min m (dim + Layout.width others)),
    r.get (min m (dim + Layout.width others) + i) (dim + Layout.width others) ^ 2,
    sum_nonneg fun _ _ => sq_nonneg _, fun p => ?_⟩
  rw [hsum p, sum_sq_split (show dim ≤ min m (dim + Layout.width others) by omega) (by omega),
    hcond p, hremainder p]
  congr 1
  refine sum_congr rfl fun i hi => ?_
  have hi := mem_range.mp hi
  rw [rowAt_of_width_le hupper p (by omega), neg_sq]

/-- **What eliminating a variable leads to.** -/
theorem eliminateOne_spec (hc : Consistent dims fs) : Eliminated dims k fs c remainder := by
  obtain ⟨hkey, hparents, hremainder⟩ := keys_of_eliminateOne h
  obtain ⟨e, -, he⟩ := exists_sq_of_eliminateOne hk h hc
  refine ⟨hkey, wellFormed_of_eliminateOne hk h, fun t ht => ?_, consistent_of_eliminateOne h,
    fun f hf j hj => ?_, fun f hf => (hremainder f hf).2, e, he⟩
  · have ht : t.1 ∈ c.parentKeys := List.mem_map_of_mem ht
    rw [hparents] at ht
    exact mem_separator.mp ht
  · rw [(hremainder f hf).1] at hj
    exact mem_separator.mp hj

end One

theorem isNegligible_row {a scale : ℝ} (bs : List ℝ) (hs : 0 < scale) (hle : scale ≤ a) :
    ¬ isNegligible (Mat.ofRows (bs.length + 1) [⟨a :: bs⟩]) 1 scale = true := by
  have hget : (Mat.ofRows (bs.length + 1) [(⟨a :: bs⟩ : Vec ℝ)]).get 0 0 = a := by
    simp [Mat.get, Mat.ofRows, Vec.fit, Vec.get]
  have ht : (pivotTolerance : ℝ) ≤ 1 / 2 := by
    unfold pivotTolerance
    norm_num
  have hlt : (pivotTolerance : ℝ) * scale < a := by nlinarith
  simp [isNegligible, hget, hs.ne', abs_of_pos (hs.trans_le hle), hlt]

theorem eliminateOne_row {k : Key} {fs : List (GaussianFactor ℝ)} {dims : KeyMap ℕ}
    {o : EliminationOrder} (others : Layout) {a : ℝ} (bs : List ℝ) {parents : List (Key × Mat ℝ)}
    {d : Vec ℝ} (ho : (widths dims (separator o k fs) : LinearRun ℝ Layout).outcome = .ok others)
    (hh : GaussianGraph.height ⟨fs⟩ = 1)
    (hstack : stack ((k, 1) :: others) fs = Mat.ofRows (bs.length + 1) [⟨a :: bs⟩])
    (hs : 0 < ((Mat.ofRows (bs.length + 1) [⟨a :: bs⟩]).columns 0 (1 + Layout.width others)).amax)
    (hle : ((Mat.ofRows (bs.length + 1) [⟨a :: bs⟩]).columns 0 (1 + Layout.width others)).amax ≤ a)
    (hpar : blocksOf (Mat.ofRows (bs.length + 1) [⟨a :: bs⟩]) 0 1 others 1 = some parents)
    (hd : columnOf (Mat.ofRows (bs.length + 1) [⟨a :: bs⟩]) 0 1 (1 + Layout.width others) =
      some d) :
    (eliminateOne k 1 fs dims o).outcome = .ok (⟨k, Mat.ofRows 1 [⟨[a]⟩], parents, d⟩, none) := by
  have hw : Layout.width ((k, 1) :: others) = 1 + Layout.width others := rfl
  have hdiag : (Mat.ofRows (bs.length + 1) [⟨a :: bs⟩]).block? 0 0 1 1 =
      some (Mat.ofRows 1 [⟨[a]⟩]) := by
    simp [Mat.block?, Mat.rowsFrom, Mat.columns, Mat.ofRows, Mat.height, Vec.slice, Vec.fit]
  have hrem : (others.isEmpty || min 1 (1 + Layout.width others) - 1 == 0) = true := by
    simp
  unfold eliminateOne
  rw [Logged.outcome_bind_ok _ ho]
  simp only [hh, hw, hstack, Mat.triangular_single (hs.trans_le hle), if_neg (lt_irrefl 1)]
  rw [if_neg (isNegligible_row bs hs hle), hdiag, hpar, hd]
  simp only [hrem, if_true]
  rfl

/-! ### All variables -/

theorem eliminateAll_cons {α : Type} [Scalar α] {dims : KeyMap ℕ} {o : EliminationOrder} {k : Key}
    {ks : List Key} {pool : List (GaussianFactor α)}
    {a : List (Conditional α) × List (GaussianFactor α)}
    (h : (eliminateAll dims o (k :: ks) pool).outcome = .ok a) :
    ∃ dim c remainder cs, dims.get? k = some dim ∧ pool.filter (·.mentions k) ≠ [] ∧
      (eliminateOne k dim (pool.filter (·.mentions k)) dims o).outcome = .ok (c, remainder) ∧
      (eliminateAll dims o ks ((pool.filter fun f => !f.mentions k) ++ remainder.toList)).outcome =
        .ok (cs, a.2) ∧
      a.1 = c :: cs := by
  rw [eliminateAll] at h
  split at h
  · exact absurd h LinearError.outcome_stop_ne_ok
  next dim hdim =>
  split at h
  · exact absurd h LinearError.outcome_stop_ne_ok
  next hempty =>
  obtain ⟨⟨c, remainder⟩, hone, h⟩ := Logged.outcome_bind_eq_ok.mp h
  obtain ⟨⟨cs, left⟩, hall, h⟩ := Logged.outcome_bind_eq_ok.mp h
  cases h
  exact ⟨dim, c, remainder, cs, hdim, fun h0 => hempty (List.isEmpty_iff.mpr h0), hone, hall, rfl⟩

theorem mentions_iff {α : Type} {f : GaussianFactor α} {k : Key} :
    f.mentions k = true ↔ k ∈ f.keys := by
  rw [GaussianFactor.mentions, List.contains_iff_mem]

section Pool
variable {dims : KeyMap ℕ} {k : Key} {ks : List Key}

theorem mem_of_gathered {α : Type} {pool : List (GaussianFactor α)} {j : Key}
    (hpool : ∀ f ∈ pool, ∀ j ∈ f.keys, j ∈ k :: ks)
    (hj : j ≠ k ∧ ∃ f ∈ pool.filter (·.mentions k), j ∈ f.keys) : j ∈ ks := by
  obtain ⟨hj, f, hf, hjf⟩ := hj
  exact (List.mem_cons.mp (hpool f (List.mem_filter.mp hf).1 j hjf)).resolve_left hj

theorem consistent_next {α : Type} {pool : List (GaussianFactor α)}
    {remainder : Option (GaussianFactor α)} (hc : Consistent dims pool)
    (hremainder : Consistent dims remainder.toList) :
    Consistent dims ((pool.filter fun f => !f.mentions k) ++ remainder.toList) := by
  intro f hf
  rcases List.mem_append.mp hf with hf | hf
  · exact hc.filter _ f hf
  · exact hremainder f hf

theorem mem_next {α : Type} [Scalar α] {pool : List (GaussianFactor α)} {dim : ℕ}
    {o : EliminationOrder} {c : Conditional α} {remainder : Option (GaussianFactor α)}
    (h : (eliminateOne k dim (pool.filter (·.mentions k)) dims o).outcome = .ok (c, remainder))
    (hpool : ∀ f ∈ pool, ∀ j ∈ f.keys, j ∈ k :: ks) :
    ∀ f ∈ (pool.filter fun f => !f.mentions k) ++ remainder.toList, ∀ j ∈ f.keys, j ∈ ks := by
  intro f hf j hj
  rcases List.mem_append.mp hf with hf | hf
  · obtain ⟨hf, hfk⟩ := List.mem_filter.mp hf
    refine (List.mem_cons.mp (hpool f hf j hj)).resolve_left ?_
    rintro rfl
    rw [mentions_iff.mpr hj] at hfk
    cases hfk
  · rw [((keys_of_eliminateOne h).2.2 f hf).1] at hj
    exact mem_of_gathered hpool (mem_separator.mp hj)

end Pool

/-- **Eliminating variables keeps the squares of the pool**, up to a number, and gives a block
triangular system. -/
theorem eliminateAll_spec {dims : KeyMap ℕ} {o : EliminationOrder} {ks : List Key}
    {pool : List (GaussianFactor ℝ)} {a : List (Conditional ℝ) × List (GaussianFactor ℝ)}
    (hks : ks.Nodup) (hc : Consistent dims pool) (hpool : ∀ f ∈ pool, ∀ j ∈ f.keys, j ∈ ks)
    (h : (eliminateAll dims o ks pool).outcome = .ok a) :
    a.1.map Conditional.key = ks ∧ BlockTriangular dims a.1 ∧
      ∃ e, ∀ p, factorsSq pool p = conditionalsSq a.1 p + factorsSq a.2 p + e := by
  induction ks generalizing pool a with
  | nil =>
    cases h
    exact ⟨rfl, trivial, 0, fun p => by simp⟩
  | cons k ks ih =>
    obtain ⟨dim, c, remainder, cs, hdim, -, hone, hall, ha⟩ := eliminateAll_cons h
    obtain ⟨hk, hks⟩ := List.nodup_cons.mp hks
    have hel := eliminateOne_spec hdim hone (hc.filter _)
    obtain ⟨hkeys, htri, e, he⟩ :=
      ih hks (consistent_next hc hel.consistent) (mem_next hone hpool) hall
    obtain ⟨e', he'⟩ := hel.sq
    rw [ha, List.map_cons, hkeys, hel.key]
    refine ⟨rfl, ⟨hel.wellFormed, fun t ht => ?_, ?_, htri⟩, e + e', fun p => ?_⟩
    · rw [hkeys]
      exact mem_of_gathered hpool (hel.parent_mem t ht)
    · rwa [hkeys, hel.key]
    · rw [← factorsSq_perm (List.filter_append_perm (·.mentions k) pool), factorsSq_append, he' p,
        conditionalsSq_cons]
      have hp := he p
      rw [factorsSq_append] at hp
      linarith

end Elimination

namespace GaussianGraph

section Answers
variable {α : Type} [Scalar α] {g : GaussianGraph α} {o : EliminationOrder} {net : BayesNet α}
  {dims : KeyMap ℕ}

theorem eliminate_eq_ok_iff :
    (g.eliminate o).outcome = .ok net ↔ ∃ dims, g.dims.outcome = .ok dims ∧
    (Elimination.eliminateAll dims o o.keys g.factors).outcome = .ok (net.conditionals, []) := by
  unfold eliminate
  constructor
  · intro h
    obtain ⟨dims, hdims, h⟩ := Logged.outcome_bind_eq_ok.mp h
    obtain ⟨⟨cs, left⟩, hall, h⟩ := Logged.outcome_bind_eq_ok.mp h
    cases left with
    | nil =>
      cases h
      exact ⟨dims, hdims, hall⟩
    | cons f left => exact absurd h LinearError.outcome_stop_ne_ok
  · rintro ⟨dims, hdims, hall⟩
    rw [Logged.outcome_bind_ok _ hdims, Logged.outcome_bind_ok _ hall]
    rfl

theorem eliminateAll_of_eliminate (hdims : g.dims.outcome = .ok dims)
    (h : (g.eliminate o).outcome = .ok net) :
    (Elimination.eliminateAll dims o o.keys g.factors).outcome = .ok (net.conditionals, []) := by
  obtain ⟨dims', hdims', hall⟩ := eliminate_eq_ok_iff.mp h
  obtain rfl : dims' = dims := Except.ok.inj (hdims'.symm.trans hdims)
  exact hall

end Answers

/-- **The Bayes net of a problem** is block triangular in the order of elimination, and has the
squares of the problem, up to a number. -/
theorem eliminate_spec {g : GaussianGraph ℝ} {o : EliminationOrder} {net : BayesNet ℝ}
    (ho : ∀ k ∈ g.keys.keys, k ∈ o.keys) (h : (g.eliminate o).outcome = .ok net) :
    ∃ dims, g.dims.outcome = .ok dims ∧ net.conditionals.map Conditional.key = o.keys ∧
      BlockTriangular dims net.conditionals ∧
        ∃ e, ∀ p, factorsSq g.factors p = conditionalsSq net.conditionals p + e := by
  obtain ⟨dims, hdims, hall⟩ := eliminate_eq_ok_iff.mp h
  have hpool : ∀ f ∈ g.factors, ∀ j ∈ f.keys, j ∈ o.keys :=
    fun f hf j hj => ho j (mem_keys_keys.mpr ⟨f, hf, hj⟩)
  obtain ⟨hkeys, htri, e, he⟩ :=
    Elimination.eliminateAll_spec o.nodup (dims_of_ok hdims).1 hpool hall
  refine ⟨dims, hdims, hkeys, htri, e, fun p => ?_⟩
  rw [he p, factorsSq_nil, add_zero]

end GaussianGraph

end Smoothing
