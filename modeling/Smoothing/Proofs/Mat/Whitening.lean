import Mathlib
import Smoothing.Proofs.Mat.Definite

/-!
# Whitening a covariance

The covariance `S` has a lower triangular factor, `S = L Lᵀ`, if and only if it is positive
definite, and then the factor and its inverse `R` are found (`exists_whitening_iff`,
`exists_whitening_iff_posDef`). The inverse is lower triangular with a positive diagonal, as `L` is,
and `R S Rᵀ = (R L) (R L)ᵀ = 1` (`whitening_spec`). So `S⁻¹ = Rᵀ R`, and the squared norm of `R e`
is `eᵀ S⁻¹ e` (`IsWhitening.dotProduct_mulVec`).
-/

open Finset Matrix

namespace Smoothing

/-- The first `n` coordinates as a vector in the sense of linear algebra. -/
noncomputable def Vec.toPoint (n : ℕ) (v : Vec ℝ) : Fin n → ℝ := fun i => v.get i

namespace Mat

/-- The matrix with `n` rows and columns that has the given entries. -/
def square (n : ℕ) (a : ℕ → ℕ → ℝ) : Matrix (Fin n) (Fin n) ℝ := Matrix.of fun i j => a i j

/-- The first `n` rows and columns as a matrix in the sense of linear algebra. -/
noncomputable def toMatrix (n : ℕ) (m : Mat ℝ) : Matrix (Fin n) (Fin n) ℝ := square n m.get

/-- The matrix `R` is lower triangular with a positive diagonal and makes the covariance `S` the
identity. -/
structure IsWhitening {n : ℕ} (S R : Matrix (Fin n) (Fin n) ℝ) : Prop where
  lower : R.IsLowerTriangular
  diag_pos : ∀ i, 0 < R i i
  mul_mul_transpose : R * S * Rᵀ = 1

variable {n : ℕ} {a b l : ℕ → ℕ → ℝ} {m r : Mat ℝ}

theorem toPoint_mulVec (hcols : m.cols = n) (e : Vec ℝ) :
    (m.mulVec e).toPoint n = m.toMatrix n *ᵥ e.toPoint n := by
  ext i
  rw [Vec.toPoint, get_mulVec, hcols]
  exact (Fin.sum_univ_eq_sum_range (fun j => m.get i j * e.get j) n).symm

theorem normSq_eq_dotProduct {v : Vec ℝ} (h : v.size ≤ n) :
    v.normSq = v.toPoint n ⬝ᵥ v.toPoint n := by
  rw [Vec.normSq_eq_sum v h, ← Fin.sum_univ_eq_sum_range (fun i => v.get i ^ 2) n]
  exact sum_congr rfl fun i _ => sq _

theorem get_comm (hheight : m.height = n) (hcols : m.cols = n) (hsymm : (m.toMatrix n).IsSymm)
    (i j : ℕ) : m.get i j = m.get j i := by
  have hout : ∀ {i}, n ≤ i → ∀ j, m.get i j = m.get j i := fun hi j => by
    rw [get_of_height_le (hheight.trans_le hi), get_of_cols_le (hcols.trans_le hi)]
  by_cases hi : i < n
  · by_cases hj : j < n
    · exact hsymm.apply ⟨j, hj⟩ ⟨i, hi⟩
    · exact (hout (not_lt.mp hj) i).symm
  · exact hout (not_lt.mp hi) j

theorem square_mul_apply (i j : Fin n) :
    (square n a * square n b) i j = ∑ k ∈ range n, a i k * b k j :=
  Fin.sum_univ_eq_sum_range (fun k => a i k * b k j) n

theorem IsRightInverse.square_mul (h : IsRightInverse n a r) : square n a * toMatrix n r = 1 := by
  ext i j
  rw [toMatrix, square_mul_apply, h.sum_mul i i.isLt j j.isLt, Matrix.one_apply]
  exact if_congr Fin.ext_iff.symm rfl rfl

theorem IsLowerFactor.mul_transpose (h : IsLowerFactor n a l) (hsymm : (square n a).IsSymm) :
    square n a = square n l * (square n l)ᵀ := by
  have hle : ∀ i j : Fin n, j ≤ i → (square n l * (square n l)ᵀ) i j = a i j := fun i j hij => by
    rw [← h.sum_mul i i.isLt j hij]
    exact Fin.sum_univ_eq_sum_range (fun k => l i k * l j k) n
  ext i j
  rcases le_total j i with hij | hij
  · exact (hle i j hij).symm
  · calc square n a i j
      _ = a j i := (hsymm.apply i j).symm
      _ = (square n l * (square n l)ᵀ) j i := (hle j i hij).symm
      _ = (square n l * (square n l)ᵀ) i j := (Matrix.isSymm_mul_transpose_self _).apply i j

namespace IsRegularLower

theorem isLowerTriangular (h : IsRegularLower n l) : (square n l).IsLowerTriangular :=
  fun i j hij => h.above i j hij

theorem isUnit (h : IsRegularLower n l) : IsUnit (square n l) := by
  rw [Matrix.isUnit_iff_isUnit_det, Matrix.det_of_isLowerTriangular _ h.isLowerTriangular]
  have hpos : 0 < ∏ i : Fin n, square n l i i := Finset.prod_pos fun i _ => h.diag_pos i i.isLt
  exact hpos.ne'.isUnit

variable (h : IsRegularLower n l) {R : Matrix (Fin n) (Fin n) ℝ} (hR : square n l * R = 1)
include h hR

theorem inverse_lower : R.IsLowerTriangular := by
  have hinvertible : Invertible (square n l) := invertibleOfRightInverse _ _ hR
  rw [← Matrix.inv_eq_right_inv hR]
  exact blockTriangular_inv_of_blockTriangular h.isLowerTriangular

theorem inverse_diag_pos (i : Fin n) : 0 < R i i := by
  have hone : square n l i i * R i i = 1 := by
    have hentry : (square n l * R) i i = 1 := by rw [hR, Matrix.one_apply_eq]
    rw [Matrix.mul_apply, Finset.sum_eq_single i (fun k _ hk => ?_) (by simp)] at hentry
    · exact hentry
    · rcases lt_or_gt_of_ne hk with hlt | hgt
      · rw [inverse_lower h hR hlt, mul_zero]
      · rw [square, Matrix.of_apply, h.above i k hgt, zero_mul]
  exact pos_of_mul_pos_right (hone.symm ▸ one_pos) (h.diag_pos i i.isLt).le

end IsRegularLower

/-- **The inverse of a factor whitens.** -/
theorem IsLowerFactor.isWhitening (h : IsLowerFactor n a l) (hsymm : (square n a).IsSymm)
    {R : Matrix (Fin n) (Fin n) ℝ} (hR : square n l * R = 1) : IsWhitening (square n a) R where
  lower := h.toIsRegularLower.inverse_lower hR
  diag_pos i := h.toIsRegularLower.inverse_diag_pos hR i
  mul_mul_transpose := by
    have hleft : R * square n l = 1 := mul_eq_one_comm.mp hR
    calc R * square n a * Rᵀ
      _ = R * square n l * (R * square n l)ᵀ := by
        rw [h.mul_transpose hsymm, Matrix.transpose_mul]
        simp only [Matrix.mul_assoc]
      _ = 1 := by rw [hleft, Matrix.transpose_one, Matrix.one_mul]

/-- **A whitened vector has the squared norm of the vector in the metric of the inverse
covariance.** -/
theorem IsWhitening.dotProduct_mulVec {S R : Matrix (Fin n) (Fin n) ℝ} (h : IsWhitening S R)
    (e : Fin n → ℝ) : R *ᵥ e ⬝ᵥ R *ᵥ e = e ⬝ᵥ S⁻¹ *ᵥ e := by
  have hinv : S⁻¹ = Rᵀ * R := by
    have hassoc : R * (S * Rᵀ) = 1 := by rw [← Matrix.mul_assoc, h.mul_mul_transpose]
    have hright : S * Rᵀ * R = 1 := mul_eq_one_comm.mp hassoc
    exact Matrix.inv_eq_right_inv (by rw [← Matrix.mul_assoc, hright])
  rw [hinv, ← Matrix.mulVec_mulVec, Matrix.dotProduct_mulVec e, Matrix.vecMul_transpose]

/-! ### Positive definite matrices -/

theorem quadratic_eq_dotProduct (n : ℕ) (a : ℕ → ℕ → ℝ) (z : ℕ → ℝ) :
    quadratic n a z = (fun i : Fin n => z i) ⬝ᵥ square n a *ᵥ fun i => z i := by
  rw [quadratic, ← Fin.sum_univ_eq_sum_range (fun i => ∑ j ∈ range n, a i j * (z i * z j)) n]
  refine sum_congr rfl fun i _ => ?_
  rw [Matrix.mulVec, dotProduct, mul_sum,
    ← Fin.sum_univ_eq_sum_range (fun j => a i j * (z i * z j)) n]
  refine sum_congr rfl fun j _ => ?_
  rw [square, Matrix.of_apply]
  ring

theorem isDefinite_of_posDef (h : (square n a).PosDef) : IsDefinite n a where
  symm i hi j hj := (h.isHermitian.apply ⟨i, hi⟩ ⟨j, hj⟩).symm
  pos z hz := by
    obtain ⟨i, hi, hne⟩ := hz
    rw [quadratic_eq_dotProduct]
    exact h.dotProduct_mulVec_pos fun hzero => hne (congrFun hzero ⟨i, hi⟩)

/-- **A symmetric matrix is positive definite if and only if it has a factor.** -/
theorem posDef_iff_exists_isLowerFactor (hsymm : (square n a).IsSymm) :
    (square n a).PosDef ↔ ∃ l, IsLowerFactor n a l := by
  constructor
  · exact fun h => exists_isLowerFactor (isDefinite_of_posDef h)
  · rintro ⟨l, hl⟩
    rw [hl.mul_transpose hsymm]
    exact PosDef.mul_conjTranspose_self _ (Matrix.vecMul_injective_of_isUnit hl.isUnit)

/-! ### The matrix found -/

theorem whitening_eq_inverse_iff : m.whitening = .inverse r ↔
    ∃ columns, lowerColumns m.height m.rows = some columns ∧ lowerInverse? columns = some r := by
  rw [whitening]
  cases lowerColumns m.height m.rows with
  | none => simp
  | some columns => cases h : lowerInverse? columns <;> simp [h]

theorem squareRows_rows (h : m.cols = m.height) : SquareRows m.height m.rows :=
  ⟨rfl, fun r hr => (m.width r hr).trans h⟩

/-- **The matrix found is the inverse of a factor.** -/
theorem whitening_spec (hcols : m.cols = m.height) (h : m.whitening = .inverse r) :
    ∃ l, IsLowerFactor m.height m.get l ∧ IsRightInverse m.height l r := by
  obtain ⟨columns, hcolumns, hr⟩ := whitening_eq_inverse_iff.mp h
  obtain ⟨hlength, hfactor⟩ := lowerColumns_spec (squareRows_rows hcols) hcolumns
  obtain ⟨r', hr', hinverse⟩ := exists_lowerInverse (hlength ▸ hfactor.toIsRegularLower)
  rw [hr, Option.some_inj] at hr'
  exact ⟨lowerMatrix columns, hfactor, hr' ▸ hlength ▸ hinverse⟩

/-- **The inverse of a factor is found if there is one.** -/
theorem IsLowerFactor.exists_whitening (hcols : m.cols = m.height)
    (h : IsLowerFactor m.height m.get l) :
    ∃ r, m.whitening = .inverse r ∧ IsRightInverse m.height l r := by
  obtain ⟨columns, hcolumns, hentries⟩ := h.lowerColumns (squareRows_rows hcols)
  obtain ⟨hlength, hfactor⟩ := lowerColumns_spec (squareRows_rows hcols) hcolumns
  obtain ⟨r, hr, hinverse⟩ := exists_lowerInverse (hlength ▸ hfactor.toIsRegularLower)
  rw [hlength] at hinverse
  refine ⟨r, whitening_eq_inverse_iff.mpr ⟨columns, hcolumns, hr⟩, hinverse.height_eq,
    hinverse.cols_eq, ?_⟩
  intro i hi j hj
  rw [← hinverse.sum_mul i hi j hj]
  exact sum_congr rfl fun k hk => by rw [hentries i hi k (mem_range.mp hk)]

theorem exists_whitening_iff (hcols : m.cols = m.height) :
    (∃ r, m.whitening = .inverse r) ↔ ∃ l, IsLowerFactor m.height m.get l := by
  constructor
  · rintro ⟨r, hr⟩
    obtain ⟨l, hl, -⟩ := whitening_spec hcols hr
    exact ⟨l, hl⟩
  · rintro ⟨l, hl⟩
    obtain ⟨r, hr, -⟩ := hl.exists_whitening hcols
    exact ⟨r, hr⟩

/-! ### Diagonal covariances -/

theorem isLowerFactor_diagonal {s : ℕ → ℝ} (hs : ∀ i < n, 0 < s i) :
    IsLowerFactor n (fun i j => if i = j then s i ^ 2 else 0) fun i j =>
    if i = j then s i else 0 where
  above i j hij := if_neg hij.ne
  diag_pos i hi := by rw [if_pos rfl]; exact hs i hi
  sum_mul i hi j _ := by
    rw [sum_eq_single_of_mem i (mem_range.mpr hi) fun k _ hk => by rw [if_neg hk.symm, zero_mul],
      if_pos rfl]
    by_cases hij : i = j
    · rw [if_pos hij.symm, if_pos hij, ← hij, sq]
    · rw [if_neg (Ne.symm hij), if_neg hij, mul_zero]

theorem isSymm_diagonal (n : ℕ) (d : Vec ℝ) : ((diagonal d).toMatrix n).IsSymm := by
  ext i j
  change (diagonal d).get j i = (diagonal d).get i j
  rw [get_diagonal, get_diagonal]
  by_cases hij : (j : ℕ) = i
  · rw [hij]
  · rw [if_neg hij, if_neg (Ne.symm hij)]

/-- **Squares of standard deviations** on the diagonal have their inverses as the matrix found. -/
theorem whitening_diagonal {σs : List ℝ} (hσs : ∀ σ ∈ σs, 0 < σ) :
    (diagonal ⟨σs.map (· ^ 2)⟩).whitening = .inverse (diagonal ⟨σs.map (1 / ·)⟩) := by
  set S : Mat ℝ := diagonal ⟨σs.map (· ^ 2)⟩ with hS
  set s : ℕ → ℝ := Vec.get ⟨σs⟩ with hs
  have hheight : S.height = σs.length := by rw [hS, height_diagonal, Vec.size_mk, List.length_map]
  have hcols : S.cols = S.height := (height_diagonal _).symm
  have hpos : ∀ i < σs.length, 0 < s i := fun i hi => by
    rw [hs, Vec.get_eq_getElem hi]
    exact hσs _ (List.getElem_mem hi)
  have hsq : ∀ i, Vec.get ⟨σs.map (· ^ 2)⟩ i = s i ^ 2 :=
    Vec.get_map (· ^ 2) (zero_pow two_ne_zero) ⟨σs⟩
  have hinv : ∀ i, Vec.get ⟨σs.map (1 / ·)⟩ i = 1 / s i := Vec.get_map (1 / ·) (div_zero 1) ⟨σs⟩
  have hfactor : IsLowerFactor S.height S.get fun i j => if i = j then s i else 0 := by
    rw [hheight]
    refine (isLowerFactor_diagonal hpos).congr fun i _ j _ => ?_
    rw [hS, get_diagonal, hsq]
  obtain ⟨r, hr, hinverse⟩ := hfactor.exists_whitening hcols
  rw [hr, Whitening.inverse.injEq]
  rw [hheight] at hinverse
  refine ext_get (hinverse.height_eq.trans ?_) (hinverse.cols_eq.trans ?_) fun i hi j hj => ?_
  · rw [height_diagonal, Vec.size_mk, List.length_map]
  · exact (List.length_map _).symm
  · rw [hinverse.height_eq] at hi
    rw [hinverse.cols_eq] at hj
    have hrow := hinverse.sum_mul i hi j hj
    rw [sum_eq_single_of_mem i (mem_range.mpr hi) fun k _ hk => by rw [if_neg hk.symm, zero_mul],
      if_pos rfl] at hrow
    rw [get_diagonal, hinv]
    split_ifs at hrow ⊢ with hij
    · exact eq_one_div_of_mul_eq_one_right hrow
    · exact (mul_eq_zero.mp hrow).resolve_left (hpos i hi).ne'

end Mat

end Smoothing
