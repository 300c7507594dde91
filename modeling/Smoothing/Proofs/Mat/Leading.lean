import Mathlib
import Smoothing.Proofs.Mat.Triangular

/-!
# The first columns of a triangular factor

A reflection is chosen by the column that it clears, and it moves every column by itself. So rows
that agree in their first entries (`Mat.AgreeTo`) are still such after a column is cleared
(`Mat.AgreeTo.clearColumn`), and matrices that agree in their first columns have triangular factors
that do (`Mat.get_triangular_congr`).
-/

open Finset

namespace Smoothing.Mat

/-- Rows of width `w` that agree in their first `v` entries. -/
structure AgreeTo (v w : ℕ) (rows rows' : List (Vec ℝ)) : Prop where
  length : rows'.length = rows.length
  size : ∀ r ∈ rows, r.size = w
  size' : ∀ r ∈ rows', r.size = w
  get : ∀ i, ∀ j < v, (rows'.getD i ⟨[]⟩).get j = (rows.getD i ⟨[]⟩).get j

/-! ### Columns of a list of rows -/

theorem get_firstColumn (rows : List (Vec ℝ)) (i : ℕ) :
    (firstColumn rows).get i = (rows.getD i ⟨[]⟩).get 0 := by
  have hhead : ∀ r : Vec ℝ, r.coords.headD 0 = r.get 0 := by
    rintro ⟨_ | ⟨a, l⟩⟩ <;> simp
  by_cases hi : i < rows.length
  · rw [Vec.get_eq_getElem (by simpa [firstColumn] using hi), List.getD_eq_getElem _ _ hi, ← hhead]
    exact List.getElem_map _
  · rw [Vec.get_of_size_le (by rw [size_firstColumn]; exact not_lt.mp hi),
      List.getD_eq_default _ _ (not_lt.mp hi), Vec.get_nil]

theorem get_otherColumns (rows : List (Vec ℝ)) (i j : ℕ) :
    ((otherColumns rows).getD i ⟨[]⟩).get j = (rows.getD i ⟨[]⟩).get (j + 1) := by
  have htail : ∀ r : Vec ℝ, (⟨r.coords.tail⟩ : Vec ℝ).get j = r.get (j + 1) := by
    rintro ⟨_ | ⟨a, l⟩⟩ <;> simp
  by_cases hi : i < rows.length
  · rw [List.getD_eq_getElem _ _ (by rwa [length_otherColumns]), List.getD_eq_getElem _ _ hi,
      ← htail]
    simp only [otherColumns, List.getElem_map]
  · rw [List.getD_eq_default _ _ (by rw [length_otherColumns]; exact not_lt.mp hi),
      List.getD_eq_default _ _ (not_lt.mp hi), Vec.get_nil, Vec.get_nil]

/-! ### Rows that agree -/

namespace AgreeTo

variable {v w : ℕ} {rows rows' : List (Vec ℝ)}

theorem firstColumn_eq (h : AgreeTo (v + 1) w rows rows') :
    firstColumn rows' = firstColumn rows := by
  refine Vec.ext_get (by rw [size_firstColumn, size_firstColumn, h.length]) fun i _ => ?_
  rw [get_firstColumn, get_firstColumn, h.get i 0 v.succ_pos]

theorem otherColumns (h : AgreeTo (v + 1) (w + 1) rows rows') :
    AgreeTo v w (otherColumns rows) (otherColumns rows') := by
  refine ⟨by rw [length_otherColumns, length_otherColumns, h.length], size_otherColumns h.size,
    size_otherColumns h.size', fun i j hj => ?_⟩
  rw [get_otherColumns, get_otherColumns, h.get i (j + 1) (by omega)]

theorem reflect (hv : v ≤ w) (h : AgreeTo v w rows rows') {normal : Vec ℝ}
    (hn : normal.size = rows.length) (sign : ℝ) :
    AgreeTo v w (reflect normal sign w rows) (reflect normal sign w rows') := by
  have hn' : normal.size = rows'.length := hn.trans h.length.symm
  refine ⟨by rw [length_reflect hn, length_reflect hn', h.length], size_of_mem_reflect hn h.size,
    size_of_mem_reflect hn' h.size', fun i j hj => ?_⟩
  by_cases hi : i < rows.length
  · rw [get_reflect hn' h.size' (by rwa [h.length]) (by omega), get_reflect hn h.size hi (by omega),
      h.get i j hj, h.length]
    congr 3
    exact sum_congr rfl fun k _ => by rw [h.get k j hj]
  · rw [List.getD_eq_default _ _ (by rw [length_reflect hn', h.length]; exact not_lt.mp hi),
      List.getD_eq_default _ _ (by rw [length_reflect hn]; exact not_lt.mp hi)]

/-- What is left of rows that agree after their first column is cleared. -/
structure Step (v w : ℕ) (s s' : ColumnStep ℝ) : Prop where
  pivot : s'.pivot = s.pivot
  top : ∀ j < v, (⟨s'.top⟩ : Vec ℝ).get j = (⟨s.top⟩ : Vec ℝ).get j
  rest : AgreeTo v w s.rest s'.rest

theorem splitTop (h : AgreeTo v w rows rows') (hne : rows ≠ []) (pivot : ℝ) :
    Step v w (splitTop pivot rows) (splitTop pivot rows') := by
  obtain ⟨r, rest, rfl⟩ := List.exists_cons_of_ne_nil hne
  obtain ⟨r', rest', rfl⟩ := List.exists_cons_of_length_eq_add_one h.length
  refine ⟨rfl, h.get 0, Nat.succ_injective h.length,
    fun s hs => h.size s (List.mem_cons_of_mem _ hs),
    fun s hs => h.size' s (List.mem_cons_of_mem _ hs), fun i => h.get (i + 1)⟩

theorem clearColumn (hv : v ≤ w) (h : AgreeTo (v + 1) (w + 1) rows rows') (hne : rows ≠ []) :
    Step v w (clearColumn w rows) (clearColumn w rows') := by
  have hothers : Mat.otherColumns rows ≠ [] := fun h0 => hne (List.map_eq_nil_iff.mp h0)
  have hn := size_normal_rows rows
  rw [clearColumn_eq, clearColumn_eq, h.firstColumn_eq]
  split_ifs
  · exact h.otherColumns.splitTop hothers _
  · refine (h.otherColumns.reflect hv hn _).splitTop (List.ne_nil_of_length_pos ?_) _
    rw [length_reflect hn]
    exact List.length_pos_iff.mpr hothers

/-- **Rows that agree have triangular factors that agree.** -/
theorem triangularRows {n : ℕ} (hn : n ≤ min rows.length w) (hv : v ≤ w)
    (h : AgreeTo v w rows rows') :
    AgreeTo v w (triangularRows n w rows) (triangularRows n w rows') := by
  refine ⟨by rw [length_triangularRows, length_triangularRows],
    size_of_mem_triangularRows hn h.size, size_of_mem_triangularRows (by rwa [h.length]) h.size',
    ?_⟩
  induction n generalizing v w rows rows' with
  | zero => exact fun _ _ _ => rfl
  | succ n ih =>
    cases v with
    | zero => exact fun _ j hj => absurd hj (Nat.not_lt_zero j)
    | succ v =>
      obtain ⟨w, rfl⟩ := Nat.exists_eq_add_of_lt (show 0 < w by omega)
      obtain ⟨m, hm⟩ := Nat.exists_eq_add_of_lt (show 0 < rows.length by omega)
      simp only [zero_add] at hn hv hm h ⊢
      have hstep := h.clearColumn (Nat.le_of_succ_le_succ hv) (List.ne_nil_of_length_pos (by omega))
      have hrest := (hasSize_clearColumn hm h.size).rest
      have hget := ih (by omega) (Nat.le_of_succ_le_succ hv) hstep.rest
      rintro (_ | i) (_ | j) hj
      · exact hstep.pivot
      · exact hstep.top j (by omega)
      · rw [Mat.triangularRows, Mat.triangularRows, List.getD_cons_succ, List.getD_cons_succ,
          get_map_cons_zero, get_map_cons_zero]
      · rw [Mat.triangularRows, Mat.triangularRows, List.getD_cons_succ, List.getD_cons_succ,
          get_map_cons_succ, get_map_cons_succ]
        exact hget i j (by omega)

end AgreeTo

/-- **The first columns of a triangular factor** depend on the first columns of the matrix only. -/
theorem get_triangular_congr {a a' : Mat ℝ} {v : ℕ} (hv : v ≤ a.cols) (hcols : a'.cols = a.cols)
    (h : AgreeTo v a.cols a.rows a'.rows) (i : ℕ) {j : ℕ} (hj : j < v) :
    a'.triangular.get i j = a.triangular.get i j := by
  have hheight : a'.height = a.height := h.length
  have hrows := h.triangularRows (n := min a.height a.cols) le_rfl hv
  rw [Mat.get, Mat.get, triangular, triangular, hcols, hheight, rows_ofRows hrows.size,
    rows_ofRows hrows.size']
  exact hrows.get i j hj

end Smoothing.Mat
