import Mathlib
import Smoothing.Mat
import Smoothing.Proofs.Vec

/-!
# Matrices by entries

A matrix is its entries (`ext_get`), and the entry outside of it is zero. Products with a vector are
sums over rows or columns (`get_mulVec`, `get_transposeMulVec`), and so are the entries of a product
of matrices (`get_mul`). A block of a matrix has the entries of the matrix, moved (`get_of_block?`).
The squared norm of `A x` is the sum of the squared values of the rows at `x` (`normSq_mulVec`).
-/

open Finset

namespace Smoothing

/-- The sum of the squared values of rows at a vector. -/
noncomputable def rowsSq (rows : List (Vec ℝ)) (x : Vec ℝ) : ℝ :=
  (rows.map fun r => r.apply x ^ 2).sum

@[simp] theorem rowsSq_nil (x : Vec ℝ) : rowsSq [] x = 0 := rfl

@[simp] theorem rowsSq_cons (r : Vec ℝ) (rows : List (Vec ℝ)) (x : Vec ℝ) :
    rowsSq (r :: rows) x = r.apply x ^ 2 + rowsSq rows x := List.sum_cons

theorem rowsSq_append (rows rows' : List (Vec ℝ)) (x : Vec ℝ) :
    rowsSq (rows ++ rows') x = rowsSq rows x + rowsSq rows' x := by
  simp [rowsSq]

theorem rowsSq_eq_sum (rows : List (Vec ℝ)) (x : Vec ℝ) :
    rowsSq rows x = ∑ i ∈ range rows.length, (rows.getD i ⟨[]⟩).apply x ^ 2 :=
  sum_map_eq_sum_range rows _ _

namespace Mat

section Entries

variable {α : Type}

theorem size_getD_rows {m : Mat α} {i : ℕ} (h : i < m.height) :
    (m.rows.getD i ⟨[]⟩).size = m.cols := by
  unfold height at h
  rw [List.getD_eq_getElem _ _ h]
  exact m.width _ (List.getElem_mem h)

theorem size_getD_rows_le (m : Mat α) (i : ℕ) : (m.rows.getD i ⟨[]⟩).size ≤ m.cols := by
  by_cases h : i < m.height
  · exact (size_getD_rows h).le
  · unfold height at h
    rw [List.getD_eq_default _ _ (not_lt.mp h)]
    exact Nat.zero_le _

variable [Scalar α]

theorem get_of_height_le {m : Mat α} {i : ℕ} (h : m.height ≤ i) (j : ℕ) : m.get i j = 0 := by
  unfold get
  unfold height at h
  rw [List.getD_eq_default _ _ h, Vec.get_nil]

theorem get_of_cols_le {m : Mat α} {j : ℕ} (h : m.cols ≤ j) (i : ℕ) : m.get i j = 0 :=
  Vec.get_of_size_le ((size_getD_rows_le m i).trans h)

theorem get_columnsOf {n : ℕ} {rows : List (List α)} {j : ℕ} (h : j < n) (i : ℕ) :
    ((columnsOf n rows).getD j ⟨[]⟩).get i = (rows.getD i []).getD j 0 := by
  induction n generalizing rows j with
  | zero => omega
  | succ n ih =>
    cases j with
    | zero =>
      rw [columnsOf, List.getD_cons_zero]
      by_cases hi : i < rows.length
      · rw [Vec.get_eq_getElem (by simpa using hi), List.getD_eq_getElem _ _ hi]
        simp [List.headD_eq_head?_getD, List.head?_eq_getElem?]
      · rw [Vec.get_of_size_le (by simpa using hi), List.getD_eq_default _ _ (not_lt.mp hi)]
        rfl
    | succ j =>
      have ht : (rows.map List.tail).getD i [] = (rows.getD i []).tail :=
        List.getD_map _ [] List.tail
      rw [columnsOf, List.getD_cons_succ, ih (by omega), ht]
      cases rows.getD i [] <;> simp

theorem get_columnList {m : Mat α} {j : ℕ} (h : j < m.cols) (i : ℕ) :
    (m.columnList.getD j ⟨[]⟩).get i = m.get i j := by
  have hr : (m.rows.map Vec.coords).getD i [] = (m.rows.getD i ⟨[]⟩).coords :=
    List.getD_map _ ⟨[]⟩ Vec.coords
  rw [columnList, get_columnsOf h, hr]
  rfl

theorem size_of_mem_columnList {m : Mat α} {c : Vec α} (h : c ∈ m.columnList) :
    c.size = m.height := by
  simpa [height] using size_of_mem_columnsOf c h

theorem rows_ofRows {w : ℕ} {rows : List (Vec α)} (h : ∀ r ∈ rows, r.size = w) :
    (ofRows w rows).rows = rows :=
  (List.map_congr_left fun r hr => Vec.fit_of_size_eq (h r hr)).trans (List.map_id' _)

theorem height_zero (h w : ℕ) : (zero h w : Mat α).height = h := List.length_replicate

theorem get_zero (h w i j : ℕ) : (zero h w : Mat α).get i j = 0 := by
  by_cases hi : i < h
  · rw [Mat.get, zero, List.getD_replicate _ hi, Vec.get_zero]
  · exact get_of_height_le ((height_zero h w).trans_le (not_lt.mp hi)) j

theorem get_ofRows (rows : List (Vec α)) (i : ℕ) {w j : ℕ} (hj : j < w) :
    (ofRows w rows).get i j = (rows.getD i ⟨[]⟩).get j := by
  by_cases hi : i < rows.length
  · rw [Mat.get, ofRows, List.getD_eq_getElem _ _ (by rwa [List.length_map]), List.getElem_map,
      Vec.get_fit _ hj, List.getD_eq_getElem _ _ hi]
  · rw [get_of_height_le (by rw [height, ofRows, List.length_map]; exact not_lt.mp hi),
      List.getD_eq_default _ _ (not_lt.mp hi), Vec.get_nil]

/-- **A block has the entries of the matrix, moved.** -/
theorem get_of_block? {m b : Mat α} {i j h w : ℕ} (hb : m.block? i j h w = some b) :
    i + h ≤ m.height ∧ j + w ≤ m.cols ∧ b.height = h ∧ b.cols = w ∧
      ∀ p < h, ∀ q < w, b.get p q = m.get (i + p) (j + q) := by
  unfold block? at hb
  split_ifs at hb with hc
  obtain ⟨hi, hj⟩ := hc
  cases hb
  refine ⟨hi, hj, ?_, ?_, fun p hp q hq => ?_⟩
  · unfold height at hi ⊢
    simp only [columns, rowsFrom, List.length_map, List.length_take, List.length_drop]
    omega
  · simp only [columns, rowsFrom]
    omega
  · unfold height at hi
    have hp' : p < ((m.rows.drop i).take h).length := by
      simp only [List.length_take, List.length_drop]
      omega
    unfold get
    simp only [columns, rowsFrom]
    rw [List.getD_eq_getElem _ _ (by simpa using hp'), List.getElem_map, Vec.get_slice, if_pos hq,
      List.getElem_take, List.getElem_drop, List.getD_eq_getElem _ _ (by omega)]

theorem ext_get {a b : Mat α} (hheight : a.height = b.height) (hcols : a.cols = b.cols)
    (h : ∀ i < a.height, ∀ j < a.cols, a.get i j = b.get i j) : a = b := by
  obtain ⟨w, rows, hw⟩ := a
  obtain ⟨w', rows', hw'⟩ := b
  simp only [height] at hheight hcols h
  subst hcols
  congr 1
  refine List.ext_getElem hheight fun i hi hi' => Vec.ext_get ?_ fun j hj => ?_
  · rw [hw _ (List.getElem_mem hi), hw' _ (List.getElem_mem hi')]
  · have hget := h i hi j (by rwa [hw _ (List.getElem_mem hi)] at hj)
    simpa [Mat.get, hi, hi'] using hget

theorem get_ofFn {h w : ℕ} {f : ℕ → ℕ → α} {i j : ℕ} (hi : i < h) (hj : j < w) :
    (ofFn h w f).get i j = f i j := by
  simp [Mat.get, ofFn, Vec.get, hi, hj]

omit [Scalar α] in
theorem height_ofFn (h w : ℕ) (f : ℕ → ℕ → α) : (ofFn h w f).height = h := by simp [height, ofFn]

theorem height_diagonal (d : Vec α) : (diagonal d).height = d.size := height_ofFn _ _ _

theorem get_diagonal (d : Vec α) (i j : ℕ) :
    (diagonal d).get i j = if i = j then d.get i else 0 := by
  by_cases hi : i < d.size
  · by_cases hj : j < d.size
    · exact get_ofFn hi hj
    · rw [get_of_cols_le (not_lt.mp hj), if_neg (by omega)]
  · rw [get_of_height_le ((height_diagonal d).trans_le (not_lt.mp hi)),
      Vec.get_of_size_le (not_lt.mp hi), ite_self]

theorem height_transpose (m : Mat α) : m.transpose.height = m.cols := m.length_columnList

theorem get_transpose (m : Mat α) (i j : ℕ) : m.transpose.get i j = m.get j i := by
  by_cases hi : i < m.cols
  · exact get_columnList hi j
  · rw [get_of_cols_le (not_lt.mp hi),
      get_of_height_le ((height_transpose m).trans_le (not_lt.mp hi))]

/-! ### Columns -/

omit [Scalar α] in
theorem height_columns (m : Mat α) (start len : ℕ) : (m.columns start len).height = m.height :=
  List.length_map _

theorem get_columns (m : Mat α) (start len i j : ℕ) :
    (m.columns start len).get i j = if j < len then m.get i (start + j) else 0 := by
  have hrow : (m.rows.map (·.slice start len)).getD i ⟨[]⟩ =
      (m.rows.getD i ⟨[]⟩).slice start len := by
    by_cases hi : i < m.rows.length
    · rw [List.getD_eq_getElem _ _ (by rwa [List.length_map]), List.getD_eq_getElem _ _ hi,
        List.getElem_map]
    · rw [List.getD_eq_default _ _ (by rw [List.length_map]; exact not_lt.mp hi),
        List.getD_eq_default _ _ (not_lt.mp hi)]
      simp [Vec.slice]
  rw [Mat.get, Mat.columns, hrow, Vec.get_slice]
  rfl

theorem columns_cols (m : Mat α) : m.columns 0 m.cols = m := by
  refine ext_get (height_columns _ _ _) (min_self _) fun i _ j hj => ?_
  rw [get_columns, if_pos (lt_of_lt_of_le hj (min_le_left _ _)), Nat.zero_add]

section Beside
variable {m n : Mat α} (h : n.height = m.height)
include h

omit [Scalar α] in
theorem height_beside : (m.beside n).height = m.height := by
  unfold height at h ⊢
  simp [beside, h]

theorem get_beside (i j : ℕ) :
    (m.beside n).get i j = if j < m.cols then m.get i j else n.get i (j - m.cols) := by
  by_cases hi : i < m.height
  · have hrow : (m.beside n).rows.getD i ⟨[]⟩ = m.rows.getD i ⟨[]⟩ ++ n.rows.getD i ⟨[]⟩ := by
      unfold height at h hi
      rw [List.getD_eq_getElem _ _ (by simp [beside]; omega), List.getD_eq_getElem _ _ hi,
        List.getD_eq_getElem _ _ (by omega)]
      exact List.getElem_zipWith
    rw [Mat.get, hrow, Vec.get_append, size_getD_rows hi]
    rfl
  · rw [not_lt] at hi
    rw [get_of_height_le ((height_beside h).trans_le hi), get_of_height_le hi,
      get_of_height_le (h.trans_le hi), ite_self]

theorem columns_beside_left : (m.beside n).columns 0 m.cols = m := by
  refine ext_get ((height_columns _ _ _).trans (height_beside h))
    (min_eq_left (Nat.le_add_right _ _)) fun i _ j hj => ?_
  have hj : j < m.cols := lt_of_lt_of_le hj (min_le_left _ _)
  rw [get_columns, if_pos hj, get_beside h, Nat.zero_add, if_pos hj]

theorem columns_beside_right : (m.beside n).columns m.cols n.cols = n := by
  have hcols : ((m.beside n).columns m.cols n.cols).cols = n.cols := by
    change min n.cols (m.cols + n.cols - m.cols) = n.cols
    omega
  refine ext_get (((height_columns _ _ _).trans (height_beside h)).trans h.symm) hcols
    fun i _ j hj => ?_
  rw [get_columns, if_pos (hcols ▸ hj), get_beside h, if_neg (by omega), Nat.add_sub_cancel_left]

end Beside

end Entries

/-! ### Products with a vector -/

@[simp] theorem size_mulVec (m : Mat ℝ) (x : Vec ℝ) : (m.mulVec x).size = m.height := by
  simp [mulVec, height]

@[simp] theorem size_transposeMulVec (m : Mat ℝ) (e : Vec ℝ) :
    (m.transposeMulVec e).size = m.cols := by
  simp [transposeMulVec]

theorem apply_getD_rows (m : Mat ℝ) (x : Vec ℝ) (i : ℕ) :
    (m.rows.getD i ⟨[]⟩).apply x = ∑ j ∈ range m.cols, m.get i j * x.get j :=
  Vec.apply_eq_sum _ _ (by have := size_getD_rows_le m i; omega)

theorem get_mulVec (m : Mat ℝ) (x : Vec ℝ) (i : ℕ) :
    (m.mulVec x).get i = ∑ j ∈ range m.cols, m.get i j * x.get j := by
  rw [← apply_getD_rows]
  by_cases hi : i < m.rows.length
  · rw [Vec.get_eq_getElem (by simpa [mulVec] using hi), List.getD_eq_getElem _ _ hi]
    simp only [mulVec, List.getElem_map]
  · rw [Vec.get_of_size_le (by simpa [mulVec] using hi), List.getD_eq_default _ _ (not_lt.mp hi),
      Vec.nil_apply]

theorem get_transposeMulVec (m : Mat ℝ) (e : Vec ℝ) (j : ℕ) :
    (m.transposeMulVec e).get j = ∑ i ∈ range m.height, m.get i j * e.get i := by
  by_cases hj : j < m.cols
  · have hc : j < m.columnList.length := by simpa using hj
    rw [Vec.get_eq_getElem (by simpa [transposeMulVec] using hj)]
    simp only [transposeMulVec, List.getElem_map]
    rw [Vec.dot_eq_sum _ _ (n := m.height)
      (by rw [size_of_mem_columnList (List.getElem_mem hc)]; omega)]
    refine sum_congr rfl fun i _ => ?_
    rw [← get_columnList hj, List.getD_eq_getElem _ _ hc]
  · rw [Vec.get_of_size_le (by simpa using hj)]
    refine (sum_eq_zero fun i _ => ?_).symm
    rw [get_of_cols_le (not_lt.mp hj)]
    exact zero_mul _

/-- **The transpose**: the product of a vector with the rows has with a point the inner product that
the vector has with the rows at the point. -/
theorem sum_transposeMulVec (m : Mat ℝ) (e : Vec ℝ) (p : ℕ → ℝ) :
    ∑ j ∈ range m.cols, (m.transposeMulVec e).get j * p j =
      ∑ i ∈ range m.height, e.get i * ∑ j ∈ range m.cols, m.get i j * p j := by
  simp only [get_transposeMulVec, sum_mul, mul_sum]
  rw [sum_comm]
  exact sum_congr rfl fun i _ => sum_congr rfl fun j _ => by ring

theorem normSq_mulVec (m : Mat ℝ) (x : Vec ℝ) : (m.mulVec x).normSq = rowsSq m.rows x := by
  rw [Vec.normSq_eq_sum _ le_rfl, rowsSq_eq_sum, size_mulVec]
  refine sum_congr rfl fun i _ => ?_
  rw [get_mulVec, apply_getD_rows]

/-! ### Products of matrices -/

theorem get_map {f : ℝ → ℝ} (hf : f 0 = 0) (m : Mat ℝ) (i j : ℕ) :
    (m.map f).get i j = f (m.get i j) := by
  have hrow : (m.map f).rows.getD i ⟨[]⟩ = (m.rows.getD i ⟨[]⟩).map f :=
    List.getD_map m.rows (⟨[]⟩ : Vec ℝ) (Vec.map f)
  rw [Mat.get, hrow, Vec.get_map f hf]
  rfl

theorem height_neg (m : Mat ℝ) : (-m).height = m.height := List.length_map _

theorem get_neg (m : Mat ℝ) (i j : ℕ) : (-m).get i j = -m.get i j := get_map neg_zero m i j

theorem height_scale (m : Mat ℝ) (c : ℝ) : (m.scale c).height = m.height := List.length_map _

theorem get_scale (m : Mat ℝ) (c : ℝ) (i j : ℕ) : (m.scale c).get i j = m.get i j * c :=
  get_map (zero_mul c) m i j

section Difference
variable {a b : Mat ℝ} (hheight : b.height = a.height)
include hheight

theorem height_sub : (a - b).height = a.height := by
  unfold height at hheight ⊢
  exact List.length_zipWith.trans (by rw [hheight, min_self])

theorem get_sub (hcols : b.cols = a.cols) (i j : ℕ) : (a - b).get i j = a.get i j - b.get i j := by
  by_cases hi : i < a.height
  · have hrow : (a - b).rows.getD i ⟨[]⟩ = a.rows.getD i ⟨[]⟩ - b.rows.getD i ⟨[]⟩ := by
      have hsub := (height_sub hheight).symm ▸ hi
      unfold height at hi hsub hheight
      rw [List.getD_eq_getElem _ _ hsub, List.getD_eq_getElem _ _ hi,
        List.getD_eq_getElem _ _ (hheight ▸ hi)]
      exact List.getElem_zipWith
    rw [Mat.get, hrow,
      Vec.get_sub (by rw [size_getD_rows hi, size_getD_rows (hheight ▸ hi), hcols])]
    rfl
  · rw [not_lt] at hi
    rw [get_of_height_le ((height_sub hheight).trans_le hi), get_of_height_le hi,
      get_of_height_le (hheight.trans_le hi), sub_zero]

end Difference

theorem height_mul (a b : Mat ℝ) : (a * b).height = a.height := List.length_map _

theorem get_mul (a b : Mat ℝ) (i j : ℕ) :
    (a * b).get i j = ∑ k ∈ range a.cols, a.get i k * b.get k j := by
  have hrow : (a * b).get i j = (⟨b.columnList.map (a.rows.getD i ⟨[]⟩).apply⟩ : Vec ℝ).get j := by
    by_cases hi : i < a.height
    · have hi' : i < (a.rows.map fun r => (⟨b.columnList.map r.apply⟩ : Vec ℝ)).length := by
        rwa [List.length_map]
      change ((a.rows.map fun r => (⟨b.columnList.map r.apply⟩ : Vec ℝ)).getD i ⟨[]⟩).get j = _
      rw [List.getD_eq_getElem _ _ hi', List.getElem_map, List.getD_eq_getElem _ _ hi]
      rfl
    · rw [get_of_height_le (by rw [height_mul]; exact not_lt.mp hi),
        List.getD_eq_default _ _ (not_lt.mp hi)]
      by_cases hj : j < b.cols <;> simp [Vec.get, hj]
  rw [hrow]
  by_cases hj : j < b.cols
  · have hj' : j < b.columnList.length := by rwa [length_columnList]
    rw [Vec.get_eq_getElem (by rwa [List.length_map]), List.getElem_map,
      ← List.getD_eq_getElem _ ⟨[]⟩ hj',
      Vec.apply_eq_sum _ _ (n := a.cols) ((min_le_left _ _).trans (size_getD_rows_le a i))]
    exact sum_congr rfl fun k _ => by rw [get_columnList hj]; rfl
  · rw [Vec.get_of_size_le (by simpa using hj)]
    exact (sum_eq_zero fun k _ => by rw [get_of_cols_le (not_lt.mp hj), mul_zero]).symm

theorem height_identity (n : ℕ) :
    (identity n : Mat ℝ).height = n :=
  by simp [height, identity, ofFn]

theorem get_identity {n i : ℕ} (hi : i < n) (j : ℕ) :
    (identity n : Mat ℝ).get i j = if i = j then 1 else 0 := by
  by_cases hj : j < n
  · simp [Mat.get, identity, ofFn, Vec.get, hi, hj]
  · rw [get_of_cols_le (not_lt.mp hj), if_neg (by omega)]

theorem sum_get_identity {n i : ℕ} {p : ℕ → ℝ} (hp : n ≤ i → p i = 0) :
    ∑ j ∈ range n, (identity n : Mat ℝ).get i j * p j = p i := by
  by_cases hi : i < n
  · rw [sum_eq_single_of_mem i (mem_range.mpr hi) fun j _ hj => ?_]
    · rw [get_identity hi, if_pos rfl, one_mul]
    · rw [get_identity hi, if_neg hj.symm, zero_mul]
  · rw [hp (not_lt.mp hi)]
    exact sum_eq_zero fun j _ => by
      rw [get_of_height_le (by rw [height_identity]; exact not_lt.mp hi), zero_mul]

theorem identity_mul {n : ℕ} {m : Mat ℝ} (h : m.height = n) : identity n * m = m := by
  refine ext_get ((height_mul _ _).trans ((height_identity n).trans h.symm)) rfl fun i hi j _ => ?_
  rw [height_mul, height_identity] at hi
  rw [get_mul]
  exact sum_get_identity (p := fun k => m.get k j) fun h => absurd hi (not_lt.mpr h)

/-! ### Adding products row by row -/

section AddProducts
variable {op : ℝ → ℝ × ℝ → ℝ} {c : ℝ} (hop : ∀ y a, op y a = y + c * (a.1 * a.2))

include hop in
theorem foldl_zip_eq (l xs : List ℝ) (y : ℝ) :
    (List.zip l xs).foldl op y = y + c * (List.zipWith (· * ·) l xs).sum := by
  induction l generalizing xs y with
  | nil => simp
  | cons a l ih =>
    cases xs with
    | nil => simp
    | cons x xs =>
      rw [List.zip_cons_cons, List.foldl_cons, ih, hop, List.zipWith_cons_cons, List.sum_cons]
      ring

variable {y : Vec ℝ} {m : Mat ℝ} (h : m.height = y.size) (v : Vec ℝ)
include h

omit h in
theorem size_addProducts {α : Type} {y : Vec α} {m : Mat α} (h : m.height = y.size) (v : Vec α)
    (op : α → α × α → α) :
    (⟨List.zipWith (fun y (r : Vec α) => (List.zip r.coords v.coords).foldl op y) y.coords
      m.rows⟩ : Vec α).size =
      y.size := by
  unfold height Vec.size at h
  simp [Vec.size, h]

include hop

/-- **A multiple of the products with a matrix**, added to every coordinate from the first column to
the last. -/
theorem get_addProducts (i : ℕ) :
    (⟨List.zipWith (fun y (r : Vec ℝ) => (List.zip r.coords v.coords).foldl op y) y.coords m.rows⟩ :
      Vec ℝ).get i = y.get i + c * ∑ j ∈ range m.cols, m.get i j * v.get j := by
  have hs := size_addProducts h v op
  rw [← apply_getD_rows]
  by_cases hi : i < y.size
  · have hm : i < m.rows.length := by
      unfold height at h
      omega
    rw [Vec.get_eq_getElem (by rw [← Vec.size, hs]; exact hi), Vec.get_eq_getElem hi,
      List.getD_eq_getElem _ _ hm]
    simp only [List.getElem_zipWith, foldl_zip_eq hop, Vec.apply, Scalar.total_real]
    rfl
  · rw [Vec.get_of_size_le (by rw [hs]; exact not_lt.mp hi), Vec.get_of_size_le (not_lt.mp hi),
      List.getD_eq_default _ _ (by unfold height at h; omega), Vec.nil_apply, mul_zero, add_zero]

end AddProducts

end Mat

end Smoothing
