import Mathlib
import Smoothing.Proofs.Mat.Triangular

/-!
# Substitution

A square upper triangular matrix without zeros on its diagonal (`IsRegularUpper`) is solved by
substitution: backwards for the matrix (`exists_solveUpper?`), forwards for its transpose
(`exists_solveUpperTransposed?`). The solutions are the only ones (`IsRegularUpper.eq_zero`).
-/

open Finset

namespace Smoothing.Mat

/-- An upper triangular matrix with `n` rows and columns and no zero on its diagonal. -/
structure IsRegularUpper (n : ℕ) (r : Mat ℝ) : Prop where
  height : r.height = n
  cols : r.cols = n
  upper : ∀ i j, j < i → r.get i j = 0
  diagonal : ∀ i < n, r.get i i ≠ 0

theorem IsRegularUpper.eq_zero {n : ℕ} {r : Mat ℝ} (hr : IsRegularUpper n r) {u : ℕ → ℝ}
    (h : ∀ i < n, ∑ j ∈ range n, r.get i j * u j = 0) : ∀ j < n, u j = 0 := by
  -- the last coordinates are zero, one more in each step
  have hlast : ∀ m ≤ n, ∀ j < n, n - m ≤ j → u j = 0 := by
    intro m
    induction m with
    | zero => intro _ j hj hj'; omega
    | succ m ih =>
      intro hm j hj hj'
      by_cases hlt : n - m ≤ j
      · exact ih (by omega) j hj hlt
      · have hsum := h j hj
        rw [sum_eq_single_of_mem j (mem_range.mpr hj)] at hsum
        · exact (mul_eq_zero.mp hsum).resolve_left (hr.diagonal j hj)
        · intro i hi hij
          rcases Nat.lt_or_ge i j with hlt' | hge
          · rw [hr.upper j i hlt', zero_mul]
          · rw [ih (by omega) i (mem_range.mp hi) (by omega), mul_zero]
  intro j hj
  exact hlast n le_rfl j hj (by omega)

/-! ### Backwards -/

theorem length_of_solveRows {α : Type} [Scalar α] {k : ℕ} {rows : List (Vec α)} {bs xs : List α}
    (h : solveRows k rows bs = some xs) : xs.length = bs.length := by
  induction rows generalizing k bs xs with
  | nil =>
    cases h
    rfl
  | cons row rows ih =>
    cases bs with
    | nil => cases h
    | cons b bs =>
      simp only [solveRows, Option.bind_eq_bind, Option.bind_eq_some_iff] at h
      obtain ⟨ys, hys, h⟩ := h
      split at h
      · cases h
      · cases h
        rw [List.length_cons, List.length_cons, ih hys]

theorem size_of_solveUpper? {α : Type} [Scalar α] {r : Mat α} {b v : Vec α}
    (h : r.solveUpper? b = some v) : v.size = b.size := by
  obtain ⟨xs, hxs, rfl⟩ := Option.map_eq_some_iff.mp h
  exact length_of_solveRows hxs

theorem foldr_zip_sub (l xs : List ℝ) (b : ℝ) :
    (List.zip l xs).foldr (fun rx acc => -rx.2 * rx.1 + acc) b =
      b - (List.zipWith (· * ·) l xs).sum := by
  induction l generalizing xs with
  | nil => simp
  | cons a l ih =>
    cases xs with
    | nil => simp
    | cons x xs =>
      rw [List.zip_cons_cons, List.foldr_cons, ih, List.zipWith_cons_cons, List.sum_cons]
      ring

theorem exists_solveRows {k : ℕ} {rows : List (Vec ℝ)} {bs : List ℝ} (hl : rows.length = bs.length)
    (hd : ∀ i < rows.length, (rows.getD i ⟨[]⟩).get (k + i) ≠ 0) :
    ∃ xs, solveRows k rows bs = some xs ∧ xs.length = rows.length ∧ ∀ i < rows.length,
      ∑ j ∈ range (rows.length - i), (rows.getD i ⟨[]⟩).get (k + i + j) * xs.getD (i + j) 0 =
        bs.getD i 0 := by
  induction rows generalizing k bs with
  | nil =>
    rw [List.length_nil, eq_comm, List.length_eq_zero_iff] at hl
    subst hl
    exact ⟨[], rfl, rfl, by simp⟩
  | cons row rows ih =>
    obtain ⟨b, bs, rfl⟩ := List.exists_cons_of_length_eq_add_one hl.symm
    have hl' : rows.length = bs.length := by simpa using hl
    obtain ⟨xs, hxs, hlen, heq⟩ := ih (k := k + 1) hl' fun i hi => by
      have := hd (i + 1) (by simpa using hi)
      rwa [List.getD_cons_succ, show k + (i + 1) = k + 1 + i by omega] at this
    have hk : row.get k ≠ 0 := by simpa using hd 0 (by simp)
    set x := (b - (List.zipWith (· * ·) (row.coords.drop (k + 1)) xs).sum) / row.get k with hx
    refine ⟨x :: xs, ?_, by simp [hlen], fun i hi => ?_⟩
    · simp only [solveRows, hxs, Option.bind_eq_bind, Option.bind_some, beq_iff_eq, if_neg hk,
        foldr_zip_sub, hx]
    · cases i with
      | zero =>
        have hzip : (List.zipWith (· * ·) (row.coords.drop (k + 1)) xs).sum =
            ∑ j ∈ range rows.length, row.get (k + (j + 1)) * xs.getD j 0 := by
          rw [Vec.sum_zipWith_mul _ _ rows.length (by rw [hlen]; omega)]
          refine sum_congr rfl fun j _ => ?_
          rw [List.getD_eq_getElem?_getD, List.getElem?_drop, ← List.getD_eq_getElem?_getD,
            show k + 1 + j = k + (j + 1) by omega]
          rfl
        rw [Nat.sub_zero, List.length_cons, sum_range_succ']
        simp only [List.getD_cons_zero, Nat.zero_add, List.getD_cons_succ, Nat.add_zero]
        rw [← hzip, hx, mul_div_cancel₀ _ hk]
        ring
      | succ i =>
        have := heq i (by simpa using hi)
        rw [List.getD_cons_succ, List.getD_cons_succ, ← this, List.length_cons,
          Nat.add_sub_add_right]
        refine sum_congr rfl fun j _ => ?_
        rw [show k + (i + 1) + j = k + 1 + i + j by omega, show i + 1 + j = i + j + 1 by omega,
          List.getD_cons_succ]

theorem exists_solveUpper? {n : ℕ} {r : Mat ℝ} (hr : IsRegularUpper n r) {b : Vec ℝ}
    (hb : b.size = n) : ∃ x, r.solveUpper? b = some x ∧ x.size = n ∧ r.mulVec x = b := by
  have hrows : r.rows.length = n := hr.height
  have hsize : r.rows.length = b.coords.length := hrows.trans hb.symm
  obtain ⟨xs, hxs, hlen, heq⟩ := exists_solveRows (k := 0) hsize fun i hi => by
      rw [Nat.zero_add]
      exact hr.diagonal i (by omega)
  refine ⟨⟨xs⟩, by rw [solveUpper?, hxs]; rfl, hlen.trans hrows, ?_⟩
  refine Vec.ext_get (by rw [size_mulVec, hr.height, hb]) fun i hi => ?_
  rw [size_mulVec, hr.height] at hi
  have h := heq i (by omega)
  rw [hrows] at h
  rw [get_mulVec, hr.cols, ← Nat.add_sub_cancel' hi.le, sum_range_add,
    sum_eq_zero fun j hj => by rw [hr.upper i j (mem_range.mp hj), zero_mul], zero_add]
  refine Eq.trans (sum_congr rfl fun j _ => ?_) h
  rw [Nat.zero_add]
  rfl

/-! ### Forwards -/

theorem exists_solveColumns {columns : List (Vec ℝ)} (xs : List ℝ) {bs : List ℝ}
    (hl : columns.length = bs.length)
    (hd : ∀ t < columns.length, (columns.getD t ⟨[]⟩).get (xs.length + t) ≠ 0) :
    ∃ zs, solveColumns xs columns bs = some (xs ++ zs) ∧ zs.length = columns.length ∧
      ∀ t < columns.length, ∑ i ∈ range (xs.length + t + 1),
        (columns.getD t ⟨[]⟩).get i * (xs ++ zs).getD i 0 = bs.getD t 0 := by
  induction columns generalizing xs bs with
  | nil =>
    rw [List.length_nil, eq_comm, List.length_eq_zero_iff] at hl
    subst hl
    exact ⟨[], rfl, rfl, by simp⟩
  | cons column columns ih =>
    obtain ⟨b, bs, rfl⟩ := List.exists_cons_of_length_eq_add_one hl.symm
    have hl' : columns.length = bs.length := by simpa using hl
    have hk : column.get xs.length ≠ 0 := by simpa using hd 0 (by simp)
    set x := (b - column.dot ⟨xs⟩) / column.get xs.length with hx
    obtain ⟨zs, hzs, hlen, heq⟩ := ih (xs ++ [x]) hl' fun t ht => by
      have := hd (t + 1) (by simpa using ht)
      rwa [List.getD_cons_succ, show xs.length + (t + 1) = (xs ++ [x]).length + t by simp; omega]
        at this
    refine ⟨x :: zs, ?_, by simp [hlen], fun t ht => ?_⟩
    · simp only [solveColumns, beq_iff_eq, if_neg hk, ← hx, hzs, List.append_assoc,
        List.singleton_append]
    · cases t with
      | zero =>
        have hdot : column.dot ⟨xs⟩ =
            ∑ i ∈ range xs.length, column.get i * (xs ++ x :: zs).getD i 0 := by
          rw [Vec.dot_eq_sum _ _ (n := xs.length) (by simp)]
          refine sum_congr rfl fun i hi => ?_
          rw [List.getD_append _ _ _ _ (mem_range.mp hi)]
          rfl
        rw [Nat.add_zero, sum_range_succ, List.getD_cons_zero, ← hdot,
          List.getD_append_right _ _ _ _ le_rfl, Nat.sub_self, List.getD_cons_zero,
          List.getD_cons_zero, hx, mul_div_cancel₀ _ hk]
        ring
      | succ t =>
        have := heq t (by simpa using ht)
        rw [List.getD_cons_succ, List.getD_cons_succ, ← this, List.append_assoc,
          List.singleton_append, show (xs ++ [x]).length + t + 1 = xs.length + (t + 1) + 1 by
            simp; omega]

theorem exists_solveUpperTransposed? {n : ℕ} {r : Mat ℝ} (hr : IsRegularUpper n r) {b : Vec ℝ}
    (hb : b.size = n) :
    ∃ x, r.solveUpperTransposed? b = some x ∧ x.size = n ∧ r.transposeMulVec x = b := by
  have hcl : r.columnList.length = n := by rw [length_columnList, hr.cols]
  have hsize : r.columnList.length = b.coords.length := hcl.trans hb.symm
  obtain ⟨zs, hzs, hlen, heq⟩ := exists_solveColumns [] hsize fun t ht => by
      rw [get_columnList (by rwa [length_columnList] at ht), List.length_nil, Nat.zero_add]
      exact hr.diagonal t (by omega)
  rw [List.nil_append] at hzs
  refine ⟨⟨zs⟩, by rw [solveUpperTransposed?, hzs]; rfl, hlen.trans hcl, ?_⟩
  refine Vec.ext_get (by rw [size_transposeMulVec, hr.cols, hb]) fun t ht => ?_
  rw [size_transposeMulVec] at ht
  have htn : t < n := by rw [← hr.cols]; exact ht
  have h := heq t (by omega)
  have hlow : ∑ i ∈ range (n - (t + 1)), r.get (t + 1 + i) t * (⟨zs⟩ : Vec ℝ).get (t + 1 + i) = 0 :=
    sum_eq_zero fun i _ => by rw [hr.upper _ t (by omega), zero_mul]
  rw [get_transposeMulVec, hr.height, ← Nat.add_sub_cancel' (show t + 1 ≤ n from htn),
    sum_range_add, hlow, add_zero]
  refine Eq.trans (sum_congr (by simp) fun i _ => ?_) h
  rw [get_columnList ht, List.nil_append]
  rfl

end Smoothing.Mat
