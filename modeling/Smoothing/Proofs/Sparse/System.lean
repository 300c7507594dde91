import Mathlib
import Smoothing.Sparse.System
import Smoothing.Proofs.Mat

/-!
# Sparse vectors and normal equations

A list of entries with their places stands for a vector: at a place it has the sum of the entries
that are listed there (`SparseVec.value`). What the operations on sparse vectors do to it holds for
any list. A list whose places increase has one entry at most at each, so the sum is the entry that
is looked up (`SparseVec.lookup_eq_value`).

Main statement: `SparseSystem.value_ofLeastSquares` and `SparseSystem.rhs_ofLeastSquares`, the
entries of the normal equations are the inner products of the columns with each other and with the
residual.
-/

open Finset

namespace Smoothing

theorem getD_modify {β : Type} (v : Array β) (j : ℕ) (f : β → β) (i : ℕ) (d : β) :
    (v.modify j f).getD i d = if i = j ∧ i < v.size then f (v.getD i d) else v.getD i d := by
  rw [Array.getD_eq_getD_getElem?, Array.getD_eq_getD_getElem?, Array.getElem?_modify]
  by_cases hi : i < v.size
  · by_cases hij : j = i
    · simp [hij, hi]
    · simp [hij, Ne.symm hij]
  · simp [hi]

theorem getD_setIfInBounds {β : Type} (v : Array β) (j : ℕ) (b : β) (i : ℕ) (d : β) :
    (v.setIfInBounds j b).getD i d = if i = j ∧ i < v.size then b else v.getD i d := by
  rw [Array.getD_eq_getD_getElem?, Array.getD_eq_getD_getElem?, Array.getElem?_setIfInBounds]
  by_cases hij : j = i
  · subst hij
    by_cases hj : j < v.size
    · simp [hj]
    · simp [hj]
  · simp [hij, Ne.symm hij]

namespace SparseVec

/-- The number at a place: the sum of all entries that are listed there. -/
noncomputable def value (v : SparseVec ℝ) (i : ℕ) : ℝ :=
  (v.map fun e => if e.1 = i then e.2 else 0).sum

@[simp] theorem value_nil (i : ℕ) : value [] i = 0 := rfl

@[simp] theorem value_cons (e : ℕ × ℝ) (v : SparseVec ℝ) (i : ℕ) :
    value (e :: v) i = (if e.1 = i then e.2 else 0) + value v i := List.sum_cons

theorem value_eq_zero {v : SparseVec ℝ} {i : ℕ} (h : ∀ e ∈ v, e.1 ≠ i) : value v i = 0 := by
  refine List.sum_eq_zero fun a ha => ?_
  obtain ⟨e, he, rfl⟩ := List.mem_map.mp ha
  exact if_neg (h e he)

theorem value_addAt (i : ℕ) (x : ℝ) (v : SparseVec ℝ) (j : ℕ) :
    value (addAt i x v) j = (if i = j then x else 0) + value v j := by
  induction v with
  | nil => simp [addAt]
  | cons e v ih =>
    obtain ⟨k, y⟩ := e
    unfold addAt
    by_cases h1 : i < k
    · rw [if_pos h1, value_cons, zero_add]
    · by_cases h2 : i = k
      · subst h2
        rw [if_neg h1, if_pos rfl, value_cons, value_cons]
        split_ifs
        · ring
        · ring
      · rw [if_neg h1, if_neg h2, value_cons, ih, value_cons]
        ring

theorem value_addScaled (c : ℝ) (u v : SparseVec ℝ) (j : ℕ) :
    value (addScaled c u v) j = value v j + c * value u j := by
  unfold addScaled
  induction u generalizing v with
  | nil => simp
  | cons e u ih =>
    rw [List.foldl_cons, ih, value_addAt, value_cons]
    split_ifs <;> ring

theorem value_ofList (xs : List ℝ) (i : ℕ) : value (ofList xs) i = xs.getD i 0 := by
  have haux : ∀ (xs : List ℝ) (k : ℕ),
      value (((xs.zipIdx k).filter fun e => !(e.1 == 0)).map Prod.swap) i =
        if k ≤ i then xs.getD (i - k) 0 else 0 := by
    intro xs
    induction xs with
    | nil => simp
    | cons x xs ih =>
      intro k
      have hx : value (((x, k) :: xs.zipIdx (k + 1)).filter (fun e => !(e.1 == 0)) |>.map Prod.swap)
          i = (if k = i then x else 0) + if k + 1 ≤ i then xs.getD (i - (k + 1)) 0 else 0 := by
        rw [List.filter_cons, ← ih]
        split_ifs with h0 hk hk
        · simp [hk]
        · simp [hk]
        · simp_all
        · simp
      rw [List.zipIdx_cons, hx]
      rcases lt_trichotomy k i with hk | hk | hk
      · obtain ⟨d, rfl⟩ := Nat.exists_eq_add_of_lt hk
        rw [if_neg (by omega), if_pos (by omega), if_pos (by omega), zero_add,
          show k + d + 1 - (k + 1) = d by omega, show k + d + 1 - k = d + 1 by omega,
          List.getD_cons_succ]
      · subst hk
        simp
      · rw [if_neg (by omega), if_neg (by omega), if_neg (by omega), zero_add]
  exact (haux xs 0).trans (by rw [if_pos (Nat.zero_le i), Nat.sub_zero])

/-- All places are below a bound. -/
def Below (n : ℕ) (v : SparseVec ℝ) : Prop := ∀ e ∈ v, e.1 < n

theorem below_ofList (xs : List ℝ) : Below xs.length (ofList xs) := by
  intro e he
  obtain ⟨⟨x, i⟩, hx, rfl⟩ := List.mem_map.mp he
  exact (List.mem_zipIdx (List.mem_filter.mp hx).1).2.1.trans_eq (Nat.zero_add _)

theorem size_addScaledTo (c : ℝ) (u : SparseVec ℝ) (v : Array ℝ) :
    (addScaledTo c u v).size = v.size := by
  unfold addScaledTo
  induction u generalizing v with
  | nil => rfl
  | cons e u ih => rw [List.foldl_cons, ih, Array.size_modify]

theorem getD_addScaledTo (c : ℝ) (u : SparseVec ℝ) (v : Array ℝ) {i : ℕ} (hi : i < v.size) :
    (addScaledTo c u v).getD i 0 = v.getD i 0 + c * value u i := by
  unfold addScaledTo
  induction u generalizing v with
  | nil => simp
  | cons e u ih =>
    rw [List.foldl_cons, ih _ (by rwa [Array.size_modify]), getD_modify, value_cons]
    by_cases he : i = e.1
    · rw [if_pos ⟨he, hi⟩, if_pos he.symm]
      ring
    · rw [if_neg fun h => he h.1, if_neg (Ne.symm he)]
      ring

/-! ### Increasing places -/

/-- The places increase. -/
def Sorted (v : SparseVec ℝ) : Prop := v.Pairwise fun a b => a.1 < b.1

theorem mem_addAt {i : ℕ} {x : ℝ} {v : SparseVec ℝ} {e : ℕ × ℝ} (h : e ∈ addAt i x v) :
    e.1 = i ∨ ∃ e' ∈ v, e'.1 = e.1 := by
  induction v with
  | nil =>
    rw [addAt, List.mem_singleton] at h
    exact .inl (by rw [h])
  | cons a v ih =>
    unfold addAt at h
    split_ifs at h with h1 h2
    · rcases List.mem_cons.mp h with rfl | h
      · exact .inl rfl
      · exact .inr ⟨e, h, rfl⟩
    · rcases List.mem_cons.mp h with rfl | h
      · exact .inl h2.symm
      · exact .inr ⟨e, List.mem_cons_of_mem _ h, rfl⟩
    · rcases List.mem_cons.mp h with rfl | h
      · exact .inr ⟨_, List.mem_cons_self, rfl⟩
      · obtain he | ⟨e', he', hee⟩ := ih h
        · exact .inl he
        · exact .inr ⟨e', List.mem_cons_of_mem _ he', hee⟩

theorem Sorted.addAt {v : SparseVec ℝ} (hv : Sorted v) (i : ℕ) (x : ℝ) : Sorted (addAt i x v) := by
  induction v with
  | nil => exact List.pairwise_singleton _ _
  | cons a v ih =>
    have ⟨ha, hv'⟩ := List.pairwise_cons.mp hv
    unfold SparseVec.addAt
    split_ifs with h1 h2
    · refine List.pairwise_cons.mpr ⟨fun e he => ?_, hv⟩
      rcases List.mem_cons.mp he with rfl | he
      · exact h1
      · exact h1.trans (ha e he)
    · exact List.pairwise_cons.mpr ⟨ha, hv'⟩
    · refine List.pairwise_cons.mpr ⟨fun e he => ?_, ih hv'⟩
      rcases mem_addAt he with he | ⟨e', he', hee⟩
      · rw [he]
        change a.1 < i
        omega
      · rw [← hee]
        exact ha e' he'

theorem Sorted.addScaled {v : SparseVec ℝ} (hv : Sorted v) (c : ℝ) (u : SparseVec ℝ) :
    Sorted (addScaled c u v) := by
  unfold SparseVec.addScaled
  induction u generalizing v with
  | nil => exact hv
  | cons e u ih => exact ih (hv.addAt _ _)

theorem Below.addScaled {n : ℕ} {u v : SparseVec ℝ} (hu : Below n u) (hv : Below n v) (c : ℝ) :
    Below n (addScaled c u v) := by
  unfold SparseVec.addScaled
  induction u generalizing v with
  | nil => exact hv
  | cons e u ih =>
    refine ih (fun e' he' => hu e' (List.mem_cons_of_mem _ he')) fun e' he' => ?_
    rcases mem_addAt he' with he' | ⟨a, ha, hae⟩
    · rw [he']
      exact hu e List.mem_cons_self
    · rw [← hae]
      exact hv a ha

/-- The entry that is found is the number at its place. -/
theorem Sorted.lookup_eq_value {v : SparseVec ℝ} (hv : Sorted v) (i : ℕ) :
    (v.lookup i).getD 0 = value v i := by
  induction v with
  | nil => rfl
  | cons e v ih =>
    obtain ⟨j, y⟩ := e
    obtain ⟨hj, hv⟩ := List.pairwise_cons.mp hv
    rw [List.lookup_cons, value_cons]
    by_cases hij : i = j
    · subst hij
      have hz : value v i = 0 := value_eq_zero fun e he => (hj e he).ne'
      simp [hz]
    · have hb : (i == j) = false := beq_false_of_ne hij
      rw [hb, ih hv, if_neg (Ne.symm hij), zero_add]

end SparseVec

/-! ### Normal equations -/

namespace SparseSystem

open SparseVec

/-- The entry of the matrix in a row and a column. -/
noncomputable def entry (s : SparseSystem ℝ) (i j : ℕ) : ℝ := value (s.columns.getD j []) i

theorem size_addSquare (columns : Array (SparseVec ℝ)) (row : SparseVec ℝ) :
    (addSquare columns row).size = columns.size := by
  have haux : ∀ (es : SparseVec ℝ) (columns : Array (SparseVec ℝ)),
      (es.foldl (fun columns e => columns.modify e.1 (addScaled e.2 row)) columns).size =
        columns.size := by
    intro es
    induction es with
    | nil => exact fun _ => rfl
    | cons e es ih => exact fun columns => by rw [List.foldl_cons, ih, Array.size_modify]
  exact haux row columns

theorem value_addSquare (columns : Array (SparseVec ℝ)) (row : SparseVec ℝ) {j : ℕ}
    (hj : j < columns.size) (i : ℕ) : value ((addSquare columns row).getD j []) i =
      value (columns.getD j []) i + value row i * value row j := by
  have haux : ∀ (es : SparseVec ℝ) (columns : Array (SparseVec ℝ)), j < columns.size →
      value
        ((es.foldl (fun columns e => columns.modify e.1 (addScaled e.2 row)) columns).getD j []) i =
        value (columns.getD j []) i + value row i * value es j := by
    intro es
    induction es with
    | nil => simp
    | cons e es ih =>
      intro columns hj
      rw [List.foldl_cons, ih _ (by rwa [Array.size_modify]), getD_modify, value_cons]
      by_cases he : j = e.1
      · rw [if_pos ⟨he, hj⟩, if_pos he.symm, value_addScaled]
        ring
      · rw [if_neg fun h => he h.1, if_neg (Ne.symm he)]
        ring
  exact haux row columns hj

/-- All columns have increasing places below a bound. -/
def Tidy (n : ℕ) (columns : Array (SparseVec ℝ)) : Prop :=
  ∀ j, Sorted (columns.getD j []) ∧ Below n (columns.getD j [])

theorem Tidy.addSquare {n : ℕ} {columns : Array (SparseVec ℝ)} (h : Tidy n columns)
    {row : SparseVec ℝ} (hr : Below n row) : Tidy n (addSquare columns row) := by
  have haux : ∀ (es : SparseVec ℝ) (columns : Array (SparseVec ℝ)), Tidy n columns →
      Tidy n (es.foldl (fun columns e => columns.modify e.1 (addScaled e.2 row)) columns) := by
    intro es
    induction es with
    | nil => exact fun _ h => h
    | cons e es ih =>
      refine fun columns h => ih _ fun j => ?_
      rw [getD_modify]
      split_ifs
      · exact ⟨(h j).1.addScaled _ _, hr.addScaled (h j).2 _⟩
      · exact h j
  exact haux row columns h

theorem foldl_addSquare {n : ℕ} {rows : List (SparseVec ℝ)} {columns : Array (SparseVec ℝ)}
    (h : Tidy n columns) (hr : ∀ r ∈ rows, Below n r) :
    (rows.foldl addSquare columns).size = columns.size ∧ Tidy n (rows.foldl addSquare columns) ∧
      ∀ j < columns.size, ∀ i, value ((rows.foldl addSquare columns).getD j []) i =
        value (columns.getD j []) i + (rows.map fun r => value r i * value r j).sum := by
  induction rows generalizing columns with
  | nil => exact ⟨rfl, h, by simp⟩
  | cons r rows ih =>
    obtain ⟨hs, ht, hv⟩ := ih (h.addSquare (hr r List.mem_cons_self)) fun r' hr' =>
      hr r' (List.mem_cons_of_mem _ hr')
    refine ⟨by rw [List.foldl_cons, hs, size_addSquare], ht, fun j hj i => ?_⟩
    rw [List.foldl_cons, hv j (by rwa [size_addSquare]), value_addSquare _ _ hj, List.map_cons,
      List.sum_cons, add_assoc]

section LeastSquares
variable (a : Mat ℝ) (r : Vec ℝ)

theorem below_rows :
    ∀ row ∈ a.rows.map fun row => SparseVec.ofList row.coords, Below a.cols row := by
  intro row hrow
  obtain ⟨v, hv, rfl⟩ := List.mem_map.mp hrow
  rw [← a.width v hv]
  exact below_ofList v.coords

theorem tidy_replicate (n : ℕ) : Tidy n (Array.replicate n []) := by
  intro j
  have : (Array.replicate n ([] : SparseVec ℝ)).getD j [] = [] := by
    rw [Array.getD_eq_getD_getElem?, Array.getElem?_replicate]
    split_ifs <;> rfl
  rw [this]
  exact ⟨List.Pairwise.nil, fun e he => absurd he List.not_mem_nil⟩

theorem tidy_ofLeastSquares : Tidy a.cols (ofLeastSquares a r).columns :=
  (foldl_addSquare (tidy_replicate a.cols) (below_rows a)).2.1

/-- **The matrix of the normal equations** has the inner products of the columns as entries. -/
theorem entry_ofLeastSquares (i j : ℕ) :
    (ofLeastSquares a r).entry i j = ∑ k ∈ range a.height, a.get k i * a.get k j := by
  have hall := foldl_addSquare (tidy_replicate a.cols) (below_rows a)
  by_cases hj : j < a.cols
  · have hempty : value ((Array.replicate a.cols ([] : SparseVec ℝ)).getD j []) i = 0 := by
      rw [Array.getD_eq_getD_getElem?, Array.getElem?_replicate, if_pos hj]
      rfl
    have hrow : ∀ row : Vec ℝ, ∀ k, value (SparseVec.ofList row.coords) k =
        row.get k := fun row k =>
      value_ofList row.coords k
    rw [entry, ofLeastSquares, hall.2.2 j (by rwa [Array.size_replicate]) i, hempty, zero_add,
      List.map_map]
    simp only [Function.comp_def, hrow]
    exact sum_map_eq_sum_range a.rows (fun row => row.get i * row.get j) ⟨[]⟩
  · have hsize : (ofLeastSquares a r).columns.size = a.cols := hall.1.trans Array.size_replicate
    have hempty : (ofLeastSquares a r).columns.getD j [] = [] := by
      rw [Array.getD_eq_getD_getElem?, Array.getElem?_eq_none (by omega)]
      rfl
    rw [entry, hempty, value_nil]
    exact (sum_eq_zero fun k _ => by rw [Mat.get_of_cols_le (not_lt.mp hj), mul_zero]).symm

theorem getD_foldl_addScaledTo (es : List (ℝ × SparseVec ℝ)) (v : Array ℝ) {i : ℕ}
    (hi : i < v.size) : (es.foldl (fun g e => addScaledTo e.1 e.2 g) v).getD i 0 =
      v.getD i 0 + (es.map fun e => e.1 * value e.2 i).sum := by
  induction es generalizing v with
  | nil => simp
  | cons e es ih =>
    rw [List.foldl_cons, ih _ (by rwa [size_addScaledTo]), getD_addScaledTo _ _ _ hi, List.map_cons,
      List.sum_cons, add_assoc]

/-- **The right-hand side of the normal equations** has the inner products of the columns with the
residual, negated. -/
theorem rhs_ofLeastSquares (hr : r.size = a.height) {i : ℕ} (hi : i < a.cols) :
    (ofLeastSquares a r).rhs.getD i 0 = -∑ k ∈ range a.height, r.get k * a.get k i := by
  have hzero : (Array.replicate a.cols (0 : ℝ)).getD i 0 = 0 := by
    rw [Array.getD_eq_getD_getElem?, Array.getElem?_replicate, if_pos hi]
    rfl
  have hlen : r.coords.length = a.rows.length := hr
  have hzip : List.zip r.coords (a.rows.map fun row => SparseVec.ofList row.coords) =
      (List.zip r.coords a.rows).map fun e => (e.1, SparseVec.ofList e.2.coords) := by
    rw [List.zip_map_right]
    rfl
  have hsum := getD_foldl_addScaledTo (List.zip r.coords (a.rows.map fun row =>
    SparseVec.ofList row.coords)) (Array.replicate a.cols 0) (by rwa [Array.size_replicate] : i < _)
  rw [hzero, zero_add, hzip, List.map_map,
    sum_map_eq_sum_range _ _ ((0 : ℝ), (⟨[]⟩ : Vec ℝ)), List.length_zip, hlen, min_self] at hsum
  have hrhs : (ofLeastSquares a r).rhs.getD i 0 = -((List.zip r.coords (a.rows.map fun row =>
      SparseVec.ofList row.coords)).foldl (fun g e => addScaledTo e.1 e.2 g)
        (Array.replicate a.cols 0)).getD i 0 := by
    have hneg : ∀ v : Array ℝ, (v.map (- ·)).getD i 0 = -v.getD i 0 := fun v => by
      rw [Array.getD_eq_getD_getElem?, Array.getD_eq_getD_getElem?, Array.getElem?_map]
      cases v[i]? <;> simp
    exact hneg _
  rw [hrhs, hzip, hsum]
  congr 1
  refine sum_congr rfl fun k hk => ?_
  have hk := mem_range.mp hk
  have hk' : k < r.coords.length := by rwa [hlen]
  rw [List.getD_eq_getElem _ _ (by rw [List.length_zip, hlen, min_self]; exact hk),
    List.getElem_zip]
  simp only [Function.comp_apply, value_ofList]
  rw [Vec.get_eq_getElem hk', Mat.get, List.getD_eq_getElem _ _ hk]
  rfl

end LeastSquares

end SparseSystem

end Smoothing
