import Mathlib
import Smoothing.Linear.Damping
import Smoothing.Proofs.BlockVector
import Smoothing.Proofs.Mat

/-!
# Linear factors at a point

A point gives every key its coordinates. At a point a row of blocks has a value (`rowValue`), which
depends linearly on the point, and a linear factor has the sum of the squares of its residual
(`GaussianFactor.sq`). The operations on block vectors compute these: `get_multiply`,
`get_residual`, `GaussianFactor.error_eq` and `GaussianGraph.error_eq`.

`Consistent dims fs` says that the blocks of factors have the widths `dims`. The widths found for a
graph are such, for exactly its variables (`GaussianGraph.dims_of_ok`).
-/

open Finset

namespace Smoothing

/-! ### Rows of blocks -/

/-- The value of row `i` of blocks at a point. -/
noncomputable def rowValue (ts : List (Key × Mat ℝ)) (p : Key → ℕ → ℝ) (i : ℕ) : ℝ :=
  (ts.map fun t => ∑ j ∈ range t.2.cols, t.2.get i j * p t.1 j).sum

@[simp] theorem rowValue_nil (p : Key → ℕ → ℝ) (i : ℕ) : rowValue [] p i = 0 := rfl

@[simp] theorem rowValue_cons (t : Key × Mat ℝ) (ts : List (Key × Mat ℝ))
    (p : Key → ℕ → ℝ) (i : ℕ) :
    rowValue (t :: ts) p i = ∑ j ∈ range t.2.cols, t.2.get i j * p t.1 j + rowValue ts p i :=
  List.sum_cons

theorem rowValue_congr {ts : List (Key × Mat ℝ)} {p q : Key → ℕ → ℝ}
    (h : ∀ t ∈ ts, ∀ j < t.2.cols, p t.1 j = q t.1 j) (i : ℕ) :
    rowValue ts p i = rowValue ts q i := by
  unfold rowValue
  congr 1
  refine List.map_congr_left fun t ht => sum_congr rfl fun j hj => ?_
  rw [h t ht j (mem_range.mp hj)]

theorem rowValue_add (ts : List (Key × Mat ℝ)) (p q : Key → ℕ → ℝ) (i : ℕ) :
    rowValue ts (p + q) i = rowValue ts p i + rowValue ts q i := by
  induction ts with
  | nil => simp
  | cons t ts ih =>
    simp only [rowValue_cons, ih, Pi.add_apply, mul_add, sum_add_distrib]
    ring

theorem rowValue_smul (ts : List (Key × Mat ℝ)) (c : ℝ) (p : Key → ℕ → ℝ) (i : ℕ) :
    rowValue ts (c • p) i = c * rowValue ts p i := by
  induction ts with
  | nil => simp
  | cons t ts ih =>
    simp only [rowValue_cons, ih, Pi.smul_apply, smul_eq_mul, mul_add, mul_sum]
    congr 1
    exact sum_congr rfl fun j _ => by ring

theorem sum_mul_rowValue (e : Vec ℝ) {ts : List (Key × Mat ℝ)} (h : ∀ t ∈ ts, t.2.height = e.size)
    (p : Key → ℕ → ℝ) : ∑ i ∈ range e.size, e.get i * rowValue ts p i =
      (ts.map fun t => ∑ j ∈ range t.2.cols, (t.2.transposeMulVec e).get j * p t.1 j).sum := by
  induction ts with
  | nil => simp
  | cons t ts ih =>
    rw [List.map_cons, List.sum_cons, ← ih fun t' ht' => h t' (List.mem_cons_of_mem _ ht'),
      t.2.sum_transposeMulVec, h t List.mem_cons_self]
    simp only [rowValue_cons, mul_add, sum_add_distrib]

namespace GaussianFactor

/-- The value of row `i` of a factor at a point, without the right-hand side. -/
noncomputable def value (f : GaussianFactor ℝ) (p : Key → ℕ → ℝ) (i : ℕ) : ℝ := rowValue f.terms p i

/-- The squared norm of the residual at a point. -/
noncomputable def sq (f : GaussianFactor ℝ) (p : Key → ℕ → ℝ) : ℝ :=
  ∑ i ∈ range f.height, (f.value p i - f.rhs.get i) ^ 2

theorem ofBlocks?_eq_ok_iff {α : Type} {keys : List Key} {blocks : List (Mat α)} {rhs : Vec α}
    {f : GaussianFactor α} :
    ofBlocks? keys blocks rhs = .ok f ↔ keys.length = blocks.length ∧
      f.terms = List.zip keys blocks ∧ f.rhs = rhs := by
  unfold ofBlocks?
  split_ifs with hlen
  · simp [hlen]
  · rw [not_not] at hlen
    constructor
    · intro h
      dsimp only at h
      split at h
      · cases h
      · split_ifs at h
        cases h
        exact ⟨hlen, rfl, rfl⟩
    · rintro ⟨-, hterms, rfl⟩
      obtain ⟨terms, rhs, height, nodup⟩ := f
      simp only at hterms height nodup
      subst hterms
      have hnone : (List.zip keys blocks).find? (fun t => t.2.height ≠ rhs.size) = none := by
        simpa using height
      dsimp only
      split
      · next h => cases hnone.symm.trans h
      · rw [dif_pos nodup]

theorem fits_iff {f : GaussianFactor ℝ} {x : BlockVector ℝ} :
    f.fits x = true ↔ ∀ t ∈ f.terms, ∀ v, x.get? t.1 = some v → v.size = t.2.cols := by
  unfold fits
  rw [List.all_eq_true]
  refine forall₂_congr fun t _ => ?_
  cases x.get? t.1 <;> simp

/-! ### Products -/

theorem size_addMulVec {y : Vec ℝ} {m : Mat ℝ} (h : m.height = y.size) (v : Vec ℝ) :
    (addMulVec y m v).size = y.size := Mat.size_addProducts h v _

theorem get_addMulVec {y : Vec ℝ} {m : Mat ℝ} (h : m.height = y.size) (v : Vec ℝ) (i : ℕ) :
    (addMulVec y m v).get i = y.get i + ∑ j ∈ range m.cols, m.get i j * v.get j := by
  rw [addMulVec, Mat.get_addProducts (c := 1) (fun y a => by rw [one_mul]) h, one_mul]

/-- The vector `y + A v` for a block and the block vector that holds `v`. -/
noncomputable def addTerm (x : BlockVector ℝ) (y : Vec ℝ) (t : Key × Mat ℝ) : Vec ℝ :=
  match x.get? t.1 with
  | some v => addMulVec y t.2 v
  | none => y

theorem multiply_eq_foldl (f : GaussianFactor ℝ) (x : BlockVector ℝ) :
    f.multiply x = f.terms.foldl (addTerm x) (Vec.zero f.height) := by
  unfold multiply
  congr 1
  funext y t
  unfold addTerm
  cases x.get? t.1 <;> rfl

theorem addTerm_spec {x : BlockVector ℝ} {y : Vec ℝ} {t : Key × Mat ℝ} (h : t.2.height = y.size) :
    (addTerm x y t).size = y.size ∧ ∀ i, (addTerm x y t).get i =
      y.get i + ∑ j ∈ range t.2.cols, t.2.get i j * x.coord t.1 j := by
  unfold addTerm
  split
  · next v hv =>
    refine ⟨size_addMulVec h v, fun i => ?_⟩
    rw [get_addMulVec h]
    congr 1
    exact sum_congr rfl fun j _ => by rw [BlockVector.coord_of_get? hv]
  · next hv =>
    refine ⟨rfl, fun i => ?_⟩
    rw [sum_eq_zero fun j _ => by rw [BlockVector.coord_of_get?_eq_none hv, mul_zero], add_zero]

theorem foldl_addTerm (x : BlockVector ℝ) {ts : List (Key × Mat ℝ)} {y : Vec ℝ}
    (hh : ∀ t ∈ ts, t.2.height = y.size) :
    (ts.foldl (addTerm x) y).size = y.size ∧
      ∀ i, (ts.foldl (addTerm x) y).get i = y.get i + rowValue ts x.coord i := by
  induction ts generalizing y with
  | nil => simp
  | cons t ts ih =>
    obtain ⟨hs, hg⟩ := addTerm_spec (x := x) (hh t List.mem_cons_self)
    obtain ⟨hs', hg'⟩ := ih (y := addTerm x y t) fun t ht => by
      rw [hs]
      exact hh t (List.mem_cons_of_mem _ ht)
    refine ⟨by rw [List.foldl_cons, hs', hs], fun i => ?_⟩
    rw [List.foldl_cons, hg', hg, rowValue_cons, add_assoc]

theorem size_multiply (f : GaussianFactor ℝ) (x : BlockVector ℝ) :
    (f.multiply x).size = f.height := by
  rw [multiply_eq_foldl, (foldl_addTerm x fun t ht => ?_).1, Vec.size_zero]
  rw [f.height_eq t ht, Vec.size_zero]
  rfl

/-- **The product has the values at the point.** -/
theorem get_multiply (f : GaussianFactor ℝ) (x : BlockVector ℝ) (i : ℕ) :
    (f.multiply x).get i = f.value x.coord i := by
  rw [multiply_eq_foldl, (foldl_addTerm x fun t ht => ?_).2, Vec.get_zero, value]
  · exact zero_add _
  · rw [f.height_eq t ht, Vec.size_zero]
    rfl

theorem size_residual (f : GaussianFactor ℝ) (x : BlockVector ℝ) :
    (f.residual x).size = f.height := by
  rw [residual, Vec.size_sub, size_multiply]
  exact min_self _

theorem get_residual (f : GaussianFactor ℝ) (x : BlockVector ℝ) (i : ℕ) :
    (f.residual x).get i = f.value x.coord i - f.rhs.get i := by
  rw [residual, Vec.get_sub (size_multiply f x), get_multiply]

theorem normSq_residual (f : GaussianFactor ℝ) (x : BlockVector ℝ) :
    (f.residual x).normSq = f.sq x.coord := by
  rw [Vec.normSq_eq_sum _ le_rfl, size_residual]
  exact sum_congr rfl fun i _ => by rw [get_residual]

theorem error_eq (f : GaussianFactor ℝ) (x : BlockVector ℝ) : f.error x = f.sq x.coord / 2 := by
  rw [error, normSq_residual]
  norm_num
  ring

theorem sq_congr {f : GaussianFactor ℝ} {p q : Key → ℕ → ℝ}
    (h : ∀ t ∈ f.terms, ∀ j < t.2.cols, p t.1 j = q t.1 j) : f.sq p = f.sq q :=
  sum_congr rfl fun _ _ => by rw [value, value, rowValue_congr h]

end GaussianFactor

/-! ### Graphs -/

/-- The sum of the squares of all residuals of factors at a point. -/
noncomputable def factorsSq (fs : List (GaussianFactor ℝ)) (p : Key → ℕ → ℝ) : ℝ :=
  (fs.map fun f => f.sq p).sum

@[simp] theorem factorsSq_nil (p : Key → ℕ → ℝ) : factorsSq [] p = 0 := rfl

@[simp] theorem factorsSq_cons (f : GaussianFactor ℝ) (fs : List (GaussianFactor ℝ))
    (p : Key → ℕ → ℝ) : factorsSq (f :: fs) p = f.sq p + factorsSq fs p := List.sum_cons

theorem factorsSq_append (fs gs : List (GaussianFactor ℝ)) (p : Key → ℕ → ℝ) :
    factorsSq (fs ++ gs) p = factorsSq fs p + factorsSq gs p := by
  simp [factorsSq]

theorem factorsSq_perm {fs gs : List (GaussianFactor ℝ)} (h : fs.Perm gs) (p : Key → ℕ → ℝ) :
    factorsSq fs p = factorsSq gs p := (h.map _).sum_eq

theorem GaussianGraph.error_eq (g : GaussianGraph ℝ) (x : BlockVector ℝ) :
    g.error x = factorsSq g.factors x.coord / 2 := by
  unfold GaussianGraph.error
  rw [Scalar.sum_real]
  induction g.factors with
  | nil => simp
  | cons f fs ih =>
    rw [List.map_cons, List.sum_cons, ih, f.error_eq, factorsSq_cons]
    ring

/-! ### Widths -/

/-- The blocks of factors have the widths of their variables. -/
def Consistent {α : Type} (dims : KeyMap ℕ) (fs : List (GaussianFactor α)) : Prop :=
  ∀ f ∈ fs, ∀ t ∈ f.terms, dims.get? t.1 = some t.2.cols

theorem Consistent.filter {α : Type} {dims : KeyMap ℕ} {fs : List (GaussianFactor α)}
    (hc : Consistent dims fs) (p : GaussianFactor α → Bool) :
    Consistent dims (fs.filter p) :=
  fun f hf => hc f (List.mem_filter.mp hf).1

theorem Consistent.dims_eq {α : Type} {dims dims' : KeyMap ℕ} {fs : List (GaussianFactor α)}
    (hc : Consistent dims fs) (hc' : Consistent dims' fs) (hk : ∀ k, k ∈ dims.keys ↔ k ∈ dims'.keys)
    (hfs : ∀ k ∈ dims.keys, ∃ f ∈ fs, k ∈ f.keys) : dims = dims' := by
  refine KeyMap.ext fun k => ?_
  by_cases hmem : k ∈ dims.keys
  · obtain ⟨f, hf, hkf⟩ := hfs k hmem
    obtain ⟨t, ht, rfl⟩ := List.mem_map.mp hkf
    rw [hc f hf t ht, hc' f hf t ht]
  · rw [KeyMap.get?_eq_none_iff.mpr hmem, KeyMap.get?_eq_none_iff.mpr fun h => hmem ((hk k).mpr h)]

namespace GaussianGraph

variable {α : Type}

theorem mem_keys_keys {g : GaussianGraph α} {k : Key} :
    k ∈ g.keys.keys ↔ ∃ f ∈ g.factors, k ∈ f.keys := by
  rw [GaussianGraph.keys, KeyMap.mem_keys_setOf, List.mem_flatMap]

theorem noteWidths_of_ok {ts : List (Key × Mat α)} {dims dims' : KeyMap ℕ}
    (h : (noteWidths dims ts).outcome = .ok dims') :
    (∀ k w, dims.get? k = some w → dims'.get? k = some w) ∧
      (∀ t ∈ ts, dims'.get? t.1 = some t.2.cols) ∧
        ∀ k ∈ dims'.keys, k ∈ dims.keys ∨ k ∈ ts.map (·.1) := by
  induction ts generalizing dims with
  | nil =>
    cases h
    exact ⟨fun _ _ h => h, by simp, fun k hk => .inl hk⟩
  | cons t ts ih =>
    obtain ⟨k, m⟩ := t
    rw [noteWidths] at h
    split at h
    · next hk =>
      obtain ⟨h1, h2, h3⟩ := ih h
      have hnew : dims'.get? k = some m.cols := h1 k m.cols (KeyMap.get?_insert_self _ _ _)
      refine ⟨fun j w hj => h1 j w ?_, fun t ht => ?_, fun j hj => ?_⟩
      · rwa [KeyMap.get?_insert_of_ne]
        rintro rfl
        rw [hk] at hj
        cases hj
      · rcases List.mem_cons.mp ht with rfl | ht
        · exact hnew
        · exact h2 t ht
      · rcases h3 j hj with hj | hj
        · rcases KeyMap.mem_keys_insert.mp hj with rfl | hj
          · right; simp
          · left; exact hj
        · right; simp [hj]
    · next w hk =>
      split at h
      · next hw =>
        subst hw
        obtain ⟨h1, h2, h3⟩ := ih h
        refine ⟨h1, fun t ht => ?_, fun j hj => ?_⟩
        · rcases List.mem_cons.mp ht with rfl | ht
          · exact h1 _ _ hk
          · exact h2 t ht
        · rcases h3 j hj with hj | hj
          · left; exact hj
          · right; simp [hj]
      · exact absurd h LinearError.outcome_stop_ne_ok

/-- **The widths of a graph** are the widths of all its blocks, for exactly its variables. -/
theorem dims_of_ok {g : GaussianGraph α} {dims : KeyMap ℕ} (h : g.dims.outcome = .ok dims) :
    Consistent dims g.factors ∧ dims.keys = g.keys.keys := by
  obtain ⟨-, h2, h3⟩ := noteWidths_of_ok h
  have hc : Consistent dims g.factors := fun f hf t ht =>
    h2 t (List.mem_flatMap.mpr ⟨f, hf, ht⟩)
  refine ⟨hc, KeyMap.keys_eq_of_mem_iff fun k => ?_⟩
  rw [mem_keys_keys]
  constructor
  · intro hk
    rcases h3 k hk with hk | hk
    · simp [KeyMap.keys, KeyMap.empty] at hk
    · obtain ⟨t, ht, rfl⟩ := List.mem_map.mp hk
      obtain ⟨f, hf, ht⟩ := List.mem_flatMap.mp ht
      exact ⟨f, hf, List.mem_map.mpr ⟨t, ht, rfl⟩⟩
  · rintro ⟨f, hf, hk⟩
    obtain ⟨t, ht, rfl⟩ := List.mem_map.mp hk
    exact KeyMap.mem_keys_iff_exists.mpr ⟨_, hc f hf t ht⟩

end GaussianGraph

theorem factorsSq_congr {dims : KeyMap ℕ} {fs : List (GaussianFactor ℝ)} (hc : Consistent dims fs)
    {p q : Key → ℕ → ℝ} (h : ∀ k w, dims.get? k = some w → ∀ i < w, p k i = q k i) :
    factorsSq fs p = factorsSq fs q := by
  unfold factorsSq
  congr 1
  refine List.map_congr_left fun f hf => GaussianFactor.sq_congr fun t ht j hj => ?_
  exact h t.1 t.2.cols (hc f hf t ht) j hj

end Smoothing
