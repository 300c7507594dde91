import Mathlib
import Smoothing.Sparse.Cholesky
import Smoothing.Proofs.Sparse.System

/-!
# Sparse factors are exact

A sparse lower triangular matrix is built row by row. `LowerFactor.IsFactor` says that its product
with its transpose is a given matrix as far as there are rows. Finding a row keeps an invariant
(`LowerFactor.RowStep.Finishing`): what is left of the row of the matrix and the products found so
far add up to the row. The columns may come in any order, but each at most once
(`LowerFactor.nodup_columnsFrom`). A row is accepted only if nothing is left of it, so the product
is exact (`LowerFactor.addRow_spec`).
-/

open Finset

namespace Smoothing.LowerFactor

open SparseVec

/-! ### The columns of a row -/

section Columns
variable {α : Type} (f : LowerFactor α)

theorem nodup_climb {found path : List ℕ} (steps j : ℕ) (h : (path.reverse ++ found).Nodup) :
    (f.climb found steps path j).Nodup := by
  induction steps generalizing path j with
  | zero => exact h
  | succ steps ih =>
    unfold climb
    split_ifs with hj
    · exact h
    · have hnew : ((j :: path).reverse ++ found).Nodup := by
        simp only [Bool.or_eq_true, decide_eq_true_eq, List.contains_iff_mem, not_or] at hj
        have hp : ((j :: path).reverse ++ found).Perm (j :: (path.reverse ++ found)) := by
          rw [List.reverse_cons, List.append_assoc]
          exact List.perm_middle
        refine hp.nodup_iff.mpr (List.nodup_cons.mpr ⟨fun hm => ?_, h⟩)
        rcases List.mem_append.mp hm with hm | hm
        · exact hj.1.2 (List.mem_reverse.mp hm)
        · exact hj.2 hm
      split
      · exact hnew
      · exact ih _ hnew

theorem nodup_columnsFrom (js : List ℕ) : (f.columnsFrom js).Nodup := by
  have haux : ∀ (js found : List ℕ), found.Nodup →
      (js.foldl (fun found j => f.climb found f.size [] j) found).Nodup := by
    intro js
    induction js with
    | nil => exact fun _ h => h
    | cons j js ih => exact fun found h => ih _ (f.nodup_climb _ j h)
  exact haux js [] List.nodup_nil

end Columns

/-! ### Factors -/

/-- The entry of a factor in a row and a column. -/
noncomputable def entry (f : LowerFactor ℝ) (i j : ℕ) : ℝ :=
  match f[j]? with
  | none => 0
  | some c => if i = j then c.diagonal else value c.below i

theorem entry_of_getElem? {f : LowerFactor ℝ} {j : ℕ} {c : LowerColumn ℝ}
    (h : f[j]? = some c) (i : ℕ) : f.entry i j = if i = j then c.diagonal else value c.below i := by
  rw [entry, h]

/-- The factor with an entry added in a row of a column. -/
noncomputable def addEntry (f : LowerFactor ℝ) (i j : ℕ) (l : ℝ) : LowerFactor ℝ :=
  f.modify j fun c => { c with below := (i, l) :: c.below, next? := c.next?.or (some i) }

theorem getElem?_addEntry_of_ne {f : LowerFactor ℝ} {j t : ℕ} (ht : j ≠ t) (i : ℕ) (l : ℝ) :
    (f.addEntry i j l)[t]? = f[t]? := by
  rw [addEntry, Array.getElem?_modify, if_neg ht]

theorem getElem?_addEntry {f : LowerFactor ℝ} {j : ℕ} {c : LowerColumn ℝ} (hc : f[j]? = some c)
    (i : ℕ) (l : ℝ) :
    (f.addEntry i j l)[j]? =
      some { c with below := (i, l) :: c.below, next? := c.next?.or (some i) } := by
  rw [addEntry, Array.getElem?_modify, if_pos rfl, hc]
  rfl

theorem entry_addEntry_of_ne {f : LowerFactor ℝ} {i a : ℕ} (ha : a ≠ i) (j : ℕ) (l : ℝ) (t : ℕ) :
    (f.addEntry i j l).entry a t = f.entry a t := by
  by_cases ht : j = t
  · subst ht
    rcases hc : f[j]? with _ | c
    · rw [entry, entry, addEntry, Array.getElem?_modify, if_pos rfl, hc]
      rfl
    · rw [entry_of_getElem? (getElem?_addEntry hc i l), entry_of_getElem? hc]
      simp only [value_cons, if_neg ha.symm, zero_add]
  · rw [entry, entry, getElem?_addEntry_of_ne ht]

theorem entry_addEntry_self {f : LowerFactor ℝ} {i j : ℕ} (hij : i ≠ j) {c : LowerColumn ℝ}
    (hc : f[j]? = some c) (l : ℝ) (t : ℕ) :
    (f.addEntry i j l).entry i t = f.entry i t + if j = t then l else 0 := by
  by_cases ht : j = t
  · subst ht
    rw [if_pos rfl, entry_of_getElem? (getElem?_addEntry hc i l), entry_of_getElem? hc,
      if_neg hij, if_neg hij, value_cons, if_pos rfl, add_comm]
  · rw [if_neg ht, add_zero, entry, entry, getElem?_addEntry_of_ne ht]

theorem entry_push (f : LowerFactor ℝ) (c : LowerColumn ℝ) (i j : ℕ) : entry (f.push c) i j =
    if j = f.size then (if i = f.size then c.diagonal else value c.below i) else f.entry i j := by
  rw [entry, Array.getElem?_push]
  by_cases hj : j = f.size
  · rw [if_pos hj, if_pos hj, hj]
  · rw [if_neg hj, if_neg hj]
    rfl

/-- The columns of a lower triangular matrix: their diagonal is positive, and their other entries
are below it, in rows of the matrix. -/
structure IsLower (f : LowerFactor ℝ) : Prop where
  diagonal : ∀ j : ℕ, ∀ c : LowerColumn ℝ, f[j]? = some c → 0 < c.diagonal
  below : ∀ j : ℕ, ∀ c : LowerColumn ℝ, f[j]? = some c → ∀ e ∈ c.below, j < e.1 ∧ e.1 < f.size

namespace IsLower

variable {f : LowerFactor ℝ} (hf : f.IsLower)
include hf

theorem entry_of_lt {i j : ℕ} (h : i < j) : f.entry i j = 0 := by
  rcases hj : f[j]? with _ | c
  · rw [entry, hj]
  · rw [entry_of_getElem? hj, if_neg h.ne]
    exact value_eq_zero fun e he => (h.trans (hf.below j c hj e he).1).ne'

theorem entry_of_le_row {i j : ℕ} (hi : f.size ≤ i) : f.entry i j = 0 := by
  rcases hj : f[j]? with _ | c
  · rw [entry, hj]
  · have hjs : j < f.size := (Array.getElem?_eq_some_iff.mp hj).1
    rw [entry_of_getElem? hj, if_neg (by omega)]
    exact value_eq_zero fun e he => ((hf.below j c hj e he).2.trans_le hi).ne

end IsLower

/-- The first rows of a matrix are the product of a factor with its transpose. -/
structure IsFactor (H : ℕ → ℕ → ℝ) (f : LowerFactor ℝ) : Prop extends IsLower f where
  mul : ∀ i < f.size, ∀ j < f.size, ∑ t ∈ range f.size, f.entry i t * f.entry j t = H i j

/-! ### One row -/

theorem size_foldl_sub (u : SparseVec ℝ) (l : ℝ) (v : Array ℝ) :
    (u.foldl (fun v e => v.modify e.1 (· - e.2 * l)) v).size = v.size := by
  induction u generalizing v with
  | nil => rfl
  | cons e u ih => rw [List.foldl_cons, ih, Array.size_modify]

theorem getD_foldl_sub (u : SparseVec ℝ) (l : ℝ) (v : Array ℝ) {i : ℕ} (hi : i < v.size) :
    (u.foldl (fun v e => v.modify e.1 (· - e.2 * l)) v).getD i 0 = v.getD i 0 - value u i * l := by
  induction u generalizing v with
  | nil => simp
  | cons e u ih =>
    rw [List.foldl_cons, ih _ (by rwa [Array.size_modify]), getD_modify, value_cons]
    by_cases he : i = e.1
    · rw [if_pos ⟨he, hi⟩, if_pos he.symm]
      ring
    · rw [if_neg fun h => he h.1, if_neg (Ne.symm he)]
      ring

/-- A row that is being finished, with the columns that were used. The factor has the columns it had
before, with an entry in the new row in those that were used. -/
structure RowStep.Finishing (f : LowerFactor ℝ) (h : ℕ → ℝ) (d : ℝ) (used : List ℕ)
    (s : RowStep ℝ) : Prop where
  size : s.factor.size = f.size
  size_left : s.left.size = f.size
  fresh : ∀ j ∉ used, s.factor[j]? = f[j]?
  lower : ∀ j : ℕ, ∀ c : LowerColumn ℝ, s.factor[j]? = some c →
    0 < c.diagonal ∧ ∀ e ∈ c.below, j < e.1 ∧ e.1 ≤ f.size
  entry : ∀ i < f.size, ∀ j, s.factor.entry i j = f.entry i j
  /-- What is left and the products found so far add up to the row. -/
  row : ∀ i < f.size, s.left.getD i 0 +
    ∑ t ∈ range f.size, f.entry i t * s.factor.entry f.size t = h i
  pivot : s.pivot + ∑ t ∈ range f.size, s.factor.entry f.size t ^ 2 = d

namespace RowStep.Finishing

variable {f : LowerFactor ℝ} {h : ℕ → ℝ} {d : ℝ}

theorem start (hf : f.IsLower) {left : Array ℝ} (hs : left.size = f.size)
    (hl : ∀ i < f.size, left.getD i 0 = h i) : Finishing f h d [] ⟨left, d, f⟩ := by
  have hz : ∀ t, f.entry f.size t = 0 := fun t => hf.entry_of_le_row le_rfl
  refine ⟨rfl, hs, fun _ _ => rfl, fun j c hc => ⟨hf.diagonal j c hc, fun e he => ?_⟩,
    fun _ _ _ => rfl, fun i hi => ?_, ?_⟩
  · have := hf.below j c hc e he
    omega
  · simp [hz, hl i hi]
  · simp [hz]

theorem useColumn (hf : f.IsLower) {used : List ℕ} {s : RowStep ℝ} (hs : Finishing f h d used s)
    {j : ℕ} (hj : j ∉ used) : Finishing f h d (j :: used) (RowStep.useColumn f.size s j) := by
  have hfj := hs.fresh j hj
  unfold RowStep.useColumn
  rcases hc : s.factor[j]? with _ | c
  · exact { hs with fresh := fun t ht => hs.fresh t fun hm => ht (List.mem_cons_of_mem _ hm) }
  · have hjs : j < f.size := by
      rw [← hs.size]
      exact (Array.getElem?_eq_some_iff.mp hc).1
    rw [hc] at hfj
    set l := s.left.getD j 0 * (1 / c.diagonal) with hl
    change Finishing f h d (j :: used)
      ⟨(c.below.foldl (fun v e => v.modify e.1 (· - e.2 * l)) s.left).setIfInBounds j 0,
      s.pivot - l * l,
        s.factor.addEntry f.size j l⟩
    have hd : 0 < c.diagonal := hf.diagonal j c hfj.symm
    have hrow := entry_addEntry_self hjs.ne' hc l
    have hzero : s.factor.entry f.size j = 0 := by
      rw [entry_of_getElem? hc, if_neg hjs.ne']
      exact value_eq_zero fun e he => (hf.below j c hfj.symm e he).2.ne
    refine ⟨?_, ?_, fun t ht => ?_, fun t c' hc' => ?_, fun i hi t => ?_, fun i hi => ?_, ?_⟩
    · rw [addEntry, Array.size_modify, hs.size]
    · rw [Array.size_setIfInBounds, size_foldl_sub, hs.size_left]
    · rw [List.mem_cons, not_or] at ht
      rw [getElem?_addEntry_of_ne (Ne.symm ht.1), hs.fresh t ht.2]
    · by_cases ht : j = t
      · subst ht
        rw [getElem?_addEntry hc] at hc'
        cases hc'
        refine ⟨hd, fun e he => ?_⟩
        rcases List.mem_cons.mp he with rfl | he
        · exact ⟨hjs, le_rfl⟩
        · exact (hs.lower j c hc).2 e he
      · rw [getElem?_addEntry_of_ne ht] at hc'
        exact hs.lower t c' hc'
    · rw [entry_addEntry_of_ne hi.ne, hs.entry i hi]
    · have hsum : ∑ t ∈ range f.size, f.entry i t * (s.factor.addEntry f.size j l).entry f.size t =
          ∑ t ∈ range f.size, f.entry i t * s.factor.entry f.size t + f.entry i j * l := by
        simp only [hrow, mul_add, sum_add_distrib, mul_ite, mul_zero, sum_ite_eq, mem_range,
          hjs, if_true]
      have hleft := hs.row i hi
      rw [hsum, getD_setIfInBounds, size_foldl_sub, hs.size_left]
      by_cases hij : i = j
      · subst hij
        rw [if_pos ⟨rfl, hi⟩, entry_of_getElem? hfj.symm, if_pos rfl, hl]
        rw [← hleft]
        field_simp
        ring
      · rw [if_neg fun h => hij h.1, getD_foldl_sub _ _ _ (by rwa [hs.size_left]),
          entry_of_getElem? hfj.symm, if_neg hij, ← hleft]
        ring
    · have hsq : ∀ t, (s.factor.addEntry f.size j l).entry f.size t ^ 2 =
          s.factor.entry f.size t ^ 2 + if j = t then l ^ 2 else 0 := by
        intro t
        rw [hrow]
        split_ifs with ht
        · rw [← ht, hzero]
          ring
        · ring
      have hsum : ∑ t ∈ range f.size, (s.factor.addEntry f.size j l).entry f.size t ^ 2 =
          ∑ t ∈ range f.size, s.factor.entry f.size t ^ 2 + l ^ 2 := by
        simp only [hsq, sum_add_distrib, sum_ite_eq, mem_range, hjs, if_true]
      rw [hsum, ← hs.pivot]
      ring

theorem useColumns (hf : f.IsLower) {js used : List ℕ} {s : RowStep ℝ} (hs : Finishing f h d used s)
    (hn : js.Nodup) (hd : ∀ j ∈ js, j ∉ used) :
    ∃ used', Finishing f h d used' (js.foldl (RowStep.useColumn f.size) s) := by
  induction js generalizing used s with
  | nil => exact ⟨used, hs⟩
  | cons j js ih =>
    obtain ⟨hj, hn⟩ := List.nodup_cons.mp hn
    refine ih (hs.useColumn hf (hd j List.mem_cons_self)) hn fun t ht hm => ?_
    rcases List.mem_cons.mp hm with rfl | hm
    · exact hj ht
    · exact hd t (List.mem_cons_of_mem _ ht) hm

/-- A row of which nothing is left and that has a positive pivot completes the factor. -/
theorem isFactor_push {H : ℕ → ℕ → ℝ} (hf : f.IsFactor H) (hsym : ∀ i, H i f.size = H f.size i)
    {used : List ℕ} {s : RowStep ℝ} (hs : Finishing f (H f.size) (H f.size f.size) used s)
    (hleft : ∀ i < f.size, s.left.getD i 0 = 0) (hpivot : 0 < s.pivot) :
    IsFactor H (s.factor.push ⟨Real.sqrt s.pivot, [], none⟩) := by
  set new : LowerFactor ℝ := s.factor.push ⟨Real.sqrt s.pivot, [], none⟩ with hnew
  have hsize : new.size = f.size + 1 := by rw [hnew, Array.size_push, hs.size]
  have hget : ∀ j, new[j]? = if j = f.size then some ⟨Real.sqrt s.pivot, [], none⟩
      else s.factor[j]? := by
    intro j
    rw [hnew, Array.getElem?_push, hs.size]
  have hold : ∀ i j, j ≠ f.size → new.entry i j = s.factor.entry i j := by
    intro i j hj
    rw [hnew, entry_push, hs.size, if_neg hj]
  have hlast : ∀ i, new.entry i f.size = if i = f.size then Real.sqrt s.pivot else 0 := by
    intro i
    rw [hnew, entry_push, hs.size, if_pos rfl, value_nil]
  refine ⟨⟨fun j c hc => ?_, fun j c hc e he => ?_⟩, fun i hi j hj => ?_⟩
  · rw [hget] at hc
    split_ifs at hc with hj
    · cases hc
      exact Real.sqrt_pos.mpr hpivot
    · exact (hs.lower j c hc).1
  · rw [hget] at hc
    split_ifs at hc with hj
    · cases hc
      exact absurd he List.not_mem_nil
    · have := (hs.lower j c hc).2 e he
      omega
  · rw [hsize] at hi hj
    -- the columns before the last one have the rows of `f` and the row that was found
    have hsum : ∑ t ∈ range new.size, new.entry i t * new.entry j t =
        ∑ t ∈ range f.size, s.factor.entry i t * s.factor.entry j t +
          new.entry i f.size * new.entry j f.size := by
      rw [hsize, sum_range_succ]
      congr 1
      refine sum_congr rfl fun t ht => ?_
      have := mem_range.mp ht
      rw [hold i t (by omega), hold j t (by omega)]
    have hrow : ∀ a < f.size, ∑ t ∈ range f.size, s.factor.entry a t * s.factor.entry f.size t =
        H f.size a := by
      intro a ha
      rw [← hs.row a ha, hleft a ha, zero_add]
      exact sum_congr rfl fun t _ => by rw [hs.entry a ha]
    rw [hsum, hlast, hlast]
    rcases Nat.lt_or_eq_of_le (Nat.lt_succ_iff.mp hi) with hi | rfl
    · rw [if_neg hi.ne, zero_mul, add_zero]
      rcases Nat.lt_or_eq_of_le (Nat.lt_succ_iff.mp hj) with hj | rfl
      · rw [← hf.mul i hi j hj]
        exact sum_congr rfl fun t _ => by rw [hs.entry i hi, hs.entry j hj]
      · rw [hrow i hi, hsym]
    · rw [if_pos rfl]
      rcases Nat.lt_or_eq_of_le (Nat.lt_succ_iff.mp hj) with hj | rfl
      · rw [if_neg hj.ne, mul_zero, add_zero, ← hrow j hj]
        exact sum_congr rfl fun t _ => mul_comm _ _
      · rw [if_pos rfl, Real.mul_self_sqrt hpivot.le, ← hs.pivot, add_comm]
        congr 1
        exact sum_congr rfl fun t _ => (sq _).symm

end RowStep.Finishing

/-- **A row that is accepted extends the factor.** -/
theorem addRow_spec {H : ℕ → ℕ → ℝ} {f f' : LowerFactor ℝ} {row : SparseVec ℝ × ℝ}
    (hf : f.IsFactor H) (hsym : ∀ i, H i f.size = H f.size i)
    (hrow : ∀ i < f.size, value row.1 i = H f.size i) (hd : row.2 = H f.size f.size)
    (h : f.addRow row = .ok f') : f'.size = f.size + 1 ∧ f'.IsFactor H := by
  unfold addRow at h
  set left := addScaledTo 1 row.1 (Array.replicate f.size 0) with hleft
  have hls : left.size = f.size := by rw [hleft, size_addScaledTo, Array.size_replicate]
  have hlv : ∀ i < f.size, left.getD i 0 = H f.size i := by
    intro i hi
    have hz : (Array.replicate f.size (0 : ℝ)).getD i 0 = 0 := by
      rw [Array.getD_eq_getD_getElem?, Array.getElem?_replicate, if_pos hi]
      rfl
    rw [hleft, getD_addScaledTo _ _ _ (by rwa [Array.size_replicate]), hz, hrow i hi]
    ring
  obtain ⟨used, hs⟩ := (RowStep.Finishing.start hf.toIsLower hls hlv (d := row.2)).useColumns
    hf.toIsLower (f.nodup_columnsFrom (row.1.map Prod.fst)) fun _ _ => List.not_mem_nil
  simp only at h
  split_ifs at h with hok
  · cases h
    rw [Bool.and_eq_true, Array.all_eq_true, decide_eq_true_eq] at hok
    obtain ⟨hzero, hpivot⟩ := hok
    rw [hd] at hs hzero hpivot ⊢
    refine ⟨by rw [Array.size_push, hs.size], hs.isFactor_push hf hsym (fun i hi => ?_) hpivot⟩
    have hi' := hi
    rw [← hs.size_left] at hi'
    rw [Array.getD_eq_getD_getElem?, Array.getElem?_eq_getElem hi', Option.getD_some]
    exact eq_of_beq (hzero i hi')

/-- **The factor of a symmetric matrix**, if there is one, is exact. -/
theorem ofRows_spec {H : ℕ → ℕ → ℝ} {f : LowerFactor ℝ} {rows : List (SparseVec ℝ × ℝ)}
    (hsym : ∀ i j, H i j = H j i)
    (hrow : ∀ m < rows.length, ∀ i < m, value (rows.getD m ([], 0)).1 i = H m i)
    (hd : ∀ m < rows.length, (rows.getD m ([], 0)).2 = H m m) (h : ofRows rows = .ok f) :
    f.size = rows.length ∧ f.IsFactor H := by
  have haux : ∀ (rows : List (SparseVec ℝ × ℝ)) (f₀ : LowerFactor ℝ), f₀.IsFactor H →
      (∀ m < rows.length, ∀ i < f₀.size + m,
        value (rows.getD m ([], 0)).1 i = H (f₀.size + m) i) →
      (∀ m < rows.length, (rows.getD m ([], 0)).2 = H (f₀.size + m) (f₀.size + m)) →
      rows.foldlM addRow f₀ = .ok f → f.size = f₀.size + rows.length ∧ f.IsFactor H := by
    intro rows
    induction rows with
    | nil =>
      intro f₀ hf₀ _ _ h
      cases h
      exact ⟨rfl, hf₀⟩
    | cons row rows ih =>
      intro f₀ hf₀ hrow hd h
      rw [List.foldlM_cons] at h
      rcases h₁ : f₀.addRow row with e | f₁
      · rw [h₁] at h
        cases h
      · rw [h₁] at h
        obtain ⟨hs, hf₁⟩ := addRow_spec hf₀ (fun i => hsym _ _)
          (fun i hi => hrow 0 (Nat.succ_pos _) i hi) (hd 0 (Nat.succ_pos _)) h₁
        have hplace : ∀ m, f₁.size + m = f₀.size + (m + 1) := fun m => by omega
        have hrow₁ : ∀ m < rows.length, ∀ i < f₁.size + m,
            value (rows.getD m ([], 0)).1 i = H (f₁.size + m) i := by
          intro m hm i hi
          rw [hplace] at hi ⊢
          exact hrow (m + 1) (Nat.succ_lt_succ hm) i hi
        have hd₁ : ∀ m < rows.length,
            (rows.getD m ([], 0)).2 = H (f₁.size + m) (f₁.size + m) := by
          intro m hm
          rw [hplace]
          exact hd (m + 1) (Nat.succ_lt_succ hm)
        obtain ⟨hs', hf⟩ := ih f₁ hf₁ hrow₁ hd₁ h
        exact ⟨by rw [hs', hplace, List.length_cons], hf⟩
  have hempty : IsFactor H (#[] : LowerFactor ℝ) :=
    ⟨⟨fun j c hc => by simp at hc, fun j c hc => by simp at hc⟩,
      fun i hi => absurd hi (Nat.not_lt_zero i)⟩
  have hplace : ∀ m, (#[] : LowerFactor ℝ).size + m = m := Nat.zero_add
  have hall := haux rows #[] hempty
  simp only [hplace] at hall
  exact hall hrow hd h

end Smoothing.LowerFactor
