import Mathlib
import Smoothing.Mat.Definite
import Smoothing.Proofs.Mat.Equations

/-!
# The inverse of a triangular matrix

With up to four rows the inverse is found by cofactors, and that is the inverse whenever the
determinant is not zero (`exists_inverse1` to `exists_inverse4`). With more rows it is found by
elimination. A lower triangular matrix with a positive diagonal has a determinant that is not zero,
and it takes only the zero vector to zero; so it has its inverse found for every number of rows
(`exists_lowerInverse`).
-/

open Finset

namespace Smoothing.Mat

/-! ### Cofactors -/

variable {a : ℕ → ℕ → ℝ}

theorem exists_inverse1 (h : a 0 0 ≠ 0) : ∃ r, inverse1? a = some r ∧ IsRightInverse 1 a r := by
  refine ⟨_, if_neg (by simpa using h), rfl, rfl, fun i hi j hj => ?_⟩
  interval_cases i
  interval_cases j
  rw [sum_range_one, Mat.get, rows_ofRows (by simp)]
  simp [h]

theorem exists_inverse2 (h : minor2 a 0 1 0 1 ≠ 0) :
    ∃ r, inverse2? a = some r ∧ IsRightInverse 2 a r := by
  refine ⟨_, if_neg (by simpa using h), rfl, rfl, fun i hi j hj => ?_⟩
  simp only [sum_range_succ, sum_range_zero, Mat.get]
  rw [rows_ofRows (by simp)]
  -- the determinant is a number of its own while the entries are divided by it
  generalize hd : minor2 a 0 1 0 1 = d at h
  interval_cases i <;> interval_cases j <;> simp <;> field_simp <;> rw [← hd, minor2] <;> ring

/-- The determinant of a matrix with three rows, along the first row. -/
noncomputable def det3 (a : ℕ → ℕ → ℝ) : ℝ :=
  a 0 0 * minor2 a 1 2 1 2 - a 0 1 * minor2 a 1 2 0 2 + a 0 2 * minor2 a 1 2 0 1

theorem exists_inverse3 (h : det3 a ≠ 0) : ∃ r, inverse3? a = some r ∧ IsRightInverse 3 a r := by
  refine ⟨_, if_neg (by simpa [det3] using h), rfl, rfl, fun i hi j hj => ?_⟩
  simp only [sum_range_succ, sum_range_zero, Mat.get]
  rw [rows_ofRows (by simp), ← det3]
  generalize hd : det3 a = d at h
  interval_cases i <;> interval_cases j <;> simp <;> field_simp <;>
    simp only [← hd, det3, minor2] <;> ring

/-- The determinant of a matrix with four rows, along the first column. -/
noncomputable def det4 (a : ℕ → ℕ → ℝ) : ℝ :=
  a 0 0 * adjugate4 a 0 0 + a 1 0 * adjugate4 a 0 1 + a 2 0 * adjugate4 a 0 2 +
    a 3 0 * adjugate4 a 0 3

theorem sum_adjugate4 (a : ℕ → ℕ → ℝ) {i j : ℕ} (hi : i < 4) (hj : j < 4) :
    ∑ k ∈ range 4, a i k * adjugate4 a k j = if i = j then det4 a else 0 := by
  simp only [sum_range_succ, sum_range_zero]
  interval_cases i <;> interval_cases j <;> simp [det4, adjugate4, minor3, others] <;> ring

theorem exists_inverse4 (h : det4 a ≠ 0) : ∃ r, inverse4? a = some r ∧ IsRightInverse 4 a r := by
  refine ⟨_, if_neg (by simpa [det4] using h), height_ofFn _ _ _, rfl, fun i hi j hj => ?_⟩
  rw [← det4]
  have hentries : ∑ k ∈ range 4,
      a i k * (ofFn 4 4 fun i j => adjugate4 a i j * (1 / det4 a)).get k j =
      (∑ k ∈ range 4, a i k * adjugate4 a k j) * (1 / det4 a) := by
    rw [sum_mul]
    exact sum_congr rfl fun k hk => by rw [get_ofFn (mem_range.mp hk) hj, mul_assoc]
  rw [hentries, sum_adjugate4 a hi hj]
  split_ifs
  · exact mul_one_div_cancel h
  · exact zero_mul _

/-! ### Triangular matrices -/

/-- Lower triangular with a positive diagonal. -/
structure IsRegularLower (n : ℕ) (l : ℕ → ℕ → ℝ) : Prop where
  above : ∀ i j, i < j → l i j = 0
  diag_pos : ∀ i < n, 0 < l i i

namespace IsRegularLower

variable {n : ℕ} {l : ℕ → ℕ → ℝ}

/-- Only the zero vector is taken to zero: a first coordinate that is not zero is seen in its
row. -/
theorem eq_zero (h : IsRegularLower n l) {z : ℕ → ℝ}
    (hz : ∀ i < n, ∑ k ∈ range n, l i k * z k = 0) : ∀ k < n, z k = 0 := by
  intro k
  induction k using Nat.strong_induction_on with
  | _ k ih =>
    intro hk
    have hrow : ∑ i ∈ range n, l k i * z i = l k k * z k := by
      refine sum_eq_single_of_mem k (mem_range.mpr hk) fun i hi hik => ?_
      rcases lt_or_gt_of_ne hik with hlt | hgt
      · rw [ih i hlt (mem_range.mp hi), mul_zero]
      · rw [h.above k i hgt, zero_mul]
    rw [hz k hk, eq_comm, mul_eq_zero] at hrow
    exact hrow.resolve_left (h.diag_pos k hk).ne'

theorem det3_ne_zero (h : IsRegularLower 3 l) : det3 l ≠ 0 := by
  have hdet : det3 l = l 0 0 * l 1 1 * l 2 2 := by
    simp only [det3, minor2, h.above 0 1 (by omega), h.above 0 2 (by omega), h.above 1 2 (by omega)]
    ring
  have h0 := h.diag_pos 0 (by omega)
  have h1 := h.diag_pos 1 (by omega)
  have h2 := h.diag_pos 2 (by omega)
  rw [hdet]
  positivity

theorem det4_ne_zero (h : IsRegularLower 4 l) : det4 l ≠ 0 := by
  have hdet : det4 l = l 0 0 * l 1 1 * l 2 2 * l 3 3 := by
    simp [det4, adjugate4, others, minor3, h.above 0 1 (by omega), h.above 0 2 (by omega),
      h.above 0 3 (by omega), h.above 1 2 (by omega), h.above 1 3 (by omega),
      h.above 2 3 (by omega)]
    ring
  have h0 := h.diag_pos 0 (by omega)
  have h1 := h.diag_pos 1 (by omega)
  have h2 := h.diag_pos 2 (by omega)
  have h3 := h.diag_pos 3 (by omega)
  rw [hdet]
  positivity

end IsRegularLower

/-- **The inverse of a lower triangular matrix is found**, by cofactors or by elimination. -/
theorem exists_lowerInverse {columns : List (Vec ℝ)}
    (h : IsRegularLower columns.length (lowerMatrix columns)) :
    ∃ r, lowerInverse? columns = some r ∧
      IsRightInverse columns.length (lowerMatrix columns) r := by
  unfold lowerInverse?
  split
  case h_1 hn =>
    rw [hn] at h ⊢
    exact exists_inverse1 (h.diag_pos 0 one_pos).ne'
  case h_2 hn =>
    rw [hn] at h ⊢
    refine exists_inverse2 ?_
    rw [minor2, h.above 0 1 one_pos, mul_zero, sub_zero]
    exact (mul_pos (h.diag_pos 0 two_pos) (h.diag_pos 1 one_lt_two)).ne'
  case h_3 hn =>
    rw [hn] at h ⊢
    exact exists_inverse3 h.det3_ne_zero
  case h_4 hn =>
    rw [hn] at h ⊢
    exact exists_inverse4 h.det4_ne_zero
  case h_5 => exact exists_inverse fun z hz => h.eq_zero hz

end Smoothing.Mat
