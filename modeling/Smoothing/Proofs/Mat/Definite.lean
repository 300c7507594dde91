import Mathlib
import Smoothing.Mat.Definite
import Smoothing.Proofs.Mat.Inverse

/-!
# The triangular factor of a symmetric matrix

A matrix `A` with `n + 1` rows has a lower triangular factor `L` with a positive diagonal,
`A = L Lᵀ`, if and only if its first column is `L₀₀` times the first column of `L` and the rest of
`L` is a factor of what is left of `A`, its Schur complement (`isLowerFactor_succ_iff`). The columns
found follow this step by step: they are a factor (`lowerColumns_spec`), and if there is a factor it
is found, so there is only one (`IsLowerFactor.lowerColumns`). By completing the square, a matrix
that is positive at all vectors other than zero has a factor (`exists_isLowerFactor`). A factor of
`c A` is `√c` times a factor of `A` (`IsLowerFactor.scale`).
-/

open Finset

namespace Smoothing.Mat

/-- The matrix `L` is lower triangular with a positive diagonal, and `L Lᵀ` has the lower triangle
of `A`. -/
structure IsLowerFactor (n : ℕ) (a l : ℕ → ℕ → ℝ) : Prop extends IsRegularLower n l where
  sum_mul : ∀ i < n, ∀ j ≤ i, ∑ k ∈ range n, l i k * l j k = a i j

/-- What is left of a matrix when the column `b` of its factor is taken away. -/
def schur (a : ℕ → ℕ → ℝ) (b : ℕ → ℝ) (i j : ℕ) : ℝ := a (i + 1) (j + 1) - b i * b j

variable {n : ℕ} {a a' l : ℕ → ℕ → ℝ}

theorem IsLowerFactor.congr (h : IsLowerFactor n a l) (ha : ∀ i < n, ∀ j ≤ i, a' i j = a i j) :
    IsLowerFactor n a' l where
  toIsRegularLower := h.toIsRegularLower
  sum_mul i hi j hj := (h.sum_mul i hi j hj).trans (ha i hi j hj).symm

theorem IsLowerFactor.scale (h : IsLowerFactor n a l) {c : ℝ} (hc : 0 < c) :
    IsLowerFactor n (fun i j => c * a i j) fun i j => √c * l i j where
  above i j hij := by rw [h.above i j hij, mul_zero]
  diag_pos i hi := mul_pos (Real.sqrt_pos.mpr hc) (h.diag_pos i hi)
  sum_mul i hi j hj := by
    rw [← h.sum_mul i hi j hj, mul_sum]
    refine sum_congr rfl fun k _ => ?_
    rw [mul_mul_mul_comm, Real.mul_self_sqrt hc.le]

/-- **A factor is its first column and a factor of what is left.** -/
theorem isLowerFactor_succ_iff : IsLowerFactor (n + 1) a l ↔
    0 < l 0 0 ∧ (∀ j, l 0 (j + 1) = 0) ∧ a 0 0 = l 0 0 ^ 2 ∧
    (∀ i < n, a (i + 1) 0 = l (i + 1) 0 * l 0 0) ∧
      IsLowerFactor n (schur a fun i => l (i + 1) 0) fun i j => l (i + 1) (j + 1) := by
  constructor
  · intro h
    -- the first row is zero after its first entry, so a sum with it has one term
    have hrow : ∀ j, l 0 (j + 1) = 0 := fun j => h.above 0 (j + 1) (by omega)
    refine ⟨h.diag_pos 0 (by omega), hrow, ?_, fun i hi => ?_,
      ⟨⟨fun i j hij => ?_, fun i hi => ?_⟩, fun i hi j hj => ?_⟩⟩
    · rw [← h.sum_mul 0 (by omega) 0 le_rfl, sum_range_succ',
        sum_eq_zero fun k _ => by rw [hrow, mul_zero]]
      ring
    · rw [← h.sum_mul (i + 1) (by omega) 0 (by omega), sum_range_succ',
        sum_eq_zero fun k _ => by rw [hrow, mul_zero]]
      ring
    · exact h.above _ _ (by omega)
    · exact h.diag_pos _ (by omega)
    · rw [schur, ← h.sum_mul (i + 1) (by omega) (j + 1) (by omega), sum_range_succ']
      ring
  · rintro ⟨hpos, hrow, hfirst, hcol, h⟩
    refine ⟨⟨fun i j hij => ?_, fun i hi => ?_⟩, fun i hi j hj => ?_⟩
    · obtain ⟨j, rfl⟩ := Nat.exists_eq_add_of_le' (by omega : 1 ≤ j)
      cases i with
      | zero => exact hrow j
      | succ i => exact h.above i j (by omega)
    · cases i with
      | zero => exact hpos
      | succ i => exact h.diag_pos i (by omega)
    · rw [sum_range_succ']
      rcases i, j with ⟨_ | i, _ | j⟩
      · rw [sum_eq_zero fun k _ => by rw [hrow, mul_zero], hfirst]
        ring
      · omega
      · rw [sum_eq_zero fun k _ => by rw [hrow, mul_zero], hcol i (by omega), zero_add]
      · rw [h.sum_mul i (by omega) j (by omega), schur]
        ring

/-! ### The columns found -/

/-- The entry of a list of rows at a row and a column. -/
noncomputable def entry (rows : List (Vec ℝ)) (i j : ℕ) : ℝ := (rows.getD i ⟨[]⟩).get j

/-- As many rows as each of them has coordinates. -/
structure SquareRows (n : ℕ) (rows : List (Vec ℝ)) : Prop where
  length_eq : rows.length = n
  size_eq : ∀ r ∈ rows, r.size = n

/-- The first column of the factor below its diagonal entry `d`. -/
noncomputable def below (d : ℝ) (rows : List (Vec ℝ)) : List ℝ := rows.map fun r => r.get 0 / d

theorem headD_coords (r : Vec ℝ) : r.coords.headD 0 = r.get 0 := by
  rw [Vec.get]
  cases r.coords <;> rfl

theorem lowerColumns_cons (n : ℕ) (r : Vec ℝ) (rows : List (Vec ℝ)) :
    lowerColumns (n + 1) (r :: rows) =
      if 0 < r.get 0 then
        (lowerColumns n (schurRows (below √(r.get 0) rows) rows)).map
          (⟨√(r.get 0) :: below √(r.get 0) rows⟩ :: ·)
      else none := by
  simp only [lowerColumns, List.map_cons, List.headD_cons, List.tail_cons, headD_coords,
    List.map_map, Scalar.sqrt_real, Option.map_eq_bind]
  rfl

theorem get_below (d : ℝ) (r : Vec ℝ) (rows : List (Vec ℝ)) (i : ℕ) :
    Vec.get ⟨below d rows⟩ i = entry (r :: rows) (i + 1) 0 / d := by
  rw [Vec.get, below, entry, List.getD_cons_succ, ← zero_div d, ← Vec.get_nil (α := ℝ) 0]
  exact List.getD_map rows (⟨[]⟩ : Vec ℝ) fun r => r.get 0 / d

theorem getElem_schurRows {b : List ℝ} {rows : List (Vec ℝ)} {i : ℕ}
    (hi : i < (schurRows b rows).length) (hrow : i < rows.length) (hb : i < b.length) :
    (schurRows b rows)[i] = ⟨List.zipWith (fun y bj => y - b[i] * bj) rows[i].coords.tail b⟩ :=
  List.getElem_zipWith

section Schur

variable {r : Vec ℝ} {rows : List (Vec ℝ)} (h : SquareRows (n + 1) (r :: rows)) (d : ℝ)
include h

theorem length_below : (below d rows).length = n :=
  (List.length_map _).trans (Nat.succ_injective h.length_eq)

theorem length_schurRows : (schurRows (below d rows) rows).length = n := by
  rw [schurRows, List.length_zipWith, length_below h, Nat.succ_injective h.length_eq, min_self]

theorem length_getElem_rows {i : ℕ} (hi : i < rows.length) : rows[i].coords.length = n + 1 :=
  h.size_eq _ (List.mem_cons_of_mem _ (List.getElem_mem hi))

theorem SquareRows.schurRows : SquareRows n (schurRows (below d rows) rows) := by
  have hlength := length_schurRows h d
  have hbelow := length_below h d
  have hrows : rows.length = n := Nat.succ_injective h.length_eq
  refine ⟨hlength, fun r' hr' => ?_⟩
  obtain ⟨i, hi, rfl⟩ := List.getElem_of_mem hr'
  rw [hlength] at hi
  rw [getElem_schurRows _ (hrows ▸ hi) (hbelow ▸ hi)]
  simp [hbelow, length_getElem_rows h (hrows ▸ hi)]

theorem entry_schurRows {i j : ℕ} (hi : i < n) (hj : j < n) :
    entry (Mat.schurRows (below d rows) rows) i j =
    schur (entry (r :: rows)) (fun i => entry (r :: rows) (i + 1) 0 / d) i j := by
  have hbelow := length_below h d
  have hrows : i < rows.length := (Nat.succ_injective h.length_eq).symm ▸ hi
  have hlength := length_getElem_rows h hrows
  have hb : ∀ {k} (hk : k < (below d rows).length), (below d rows)[k] =
      entry (r :: rows) (k + 1) 0 / d := by
    intro k hk
    rw [← get_below, Vec.get_eq_getElem (v := ⟨below d rows⟩) hk]
  have hentry : entry (r :: rows) (i + 1) (j + 1) = rows[i].coords[j + 1] := by
    rw [entry, List.getD_cons_succ, List.getD_eq_getElem _ _ hrows, Vec.get_eq_getElem]
  rw [entry, List.getD_eq_getElem _ _ (length_schurRows h d ▸ hi),
    getElem_schurRows _ hrows (hbelow ▸ hi), Vec.get_eq_getElem (by simp; omega), schur, hentry]
  simp [hb]

end Schur

/-! ### The entries of the factor -/

section Entries

variable (d : ℝ) (b : List ℝ) (cs : List (Vec ℝ)) (i j : ℕ)

theorem lowerMatrix_zero_zero : lowerMatrix (⟨d :: b⟩ :: cs) 0 0 = d := rfl

theorem lowerMatrix_succ_zero : lowerMatrix (⟨d :: b⟩ :: cs) (i + 1) 0 = Vec.get ⟨b⟩ i := by
  rw [lowerMatrix, if_pos (Nat.zero_le _)]
  rfl

theorem lowerMatrix_succ_succ :
    lowerMatrix (⟨d :: b⟩ :: cs) (i + 1) (j + 1) = lowerMatrix cs i j := by
  simp only [lowerMatrix, Nat.add_le_add_iff_right, List.getD_cons_succ, Nat.add_sub_add_right]

end Entries

/-- **The columns found are a factor.** -/
theorem lowerColumns_spec {rows cs : List (Vec ℝ)} (h : SquareRows n rows)
    (hcs : lowerColumns n rows = some cs) :
    cs.length = n ∧ IsLowerFactor n (entry rows) (lowerMatrix cs) := by
  induction n generalizing rows cs with
  | zero =>
    cases hcs
    exact ⟨rfl, ⟨⟨fun i j hij => if_neg (by omega), by simp⟩, by simp⟩⟩
  | succ n ih =>
    obtain ⟨r, rows, rfl⟩ := List.exists_cons_of_length_eq_add_one h.length_eq
    rw [lowerColumns_cons] at hcs
    split_ifs at hcs with hpos
    set d := √(r.get 0) with hd
    have hdpos : 0 < d := Real.sqrt_pos.mpr hpos
    obtain ⟨cs', hcs', rfl⟩ := Option.map_eq_some_iff.mp hcs
    obtain ⟨hlength, hfactor⟩ := ih (h.schurRows d) hcs'
    refine ⟨by rw [List.length_cons, hlength],
      isLowerFactor_succ_iff.mpr ⟨hdpos, fun _ => rfl, ?_, fun i hi => ?_, ?_⟩⟩
    · exact (Real.sq_sqrt hpos.le).symm
    · rw [lowerMatrix_succ_zero, lowerMatrix_zero_zero, get_below d r, div_mul_cancel₀ _ hdpos.ne']
    · simp only [lowerMatrix_succ_zero, lowerMatrix_succ_succ, get_below d r]
      exact hfactor.congr fun i hi j hj => (entry_schurRows h d hi (hj.trans_lt hi)).symm

/-- **A factor is found if there is one**, so it is the only one. -/
theorem IsLowerFactor.lowerColumns {rows : List (Vec ℝ)} (h : SquareRows n rows)
    (hl : IsLowerFactor n (entry rows) l) :
    ∃ cs, lowerColumns n rows = some cs ∧ ∀ i < n, ∀ j < n, lowerMatrix cs i j = l i j := by
  induction n generalizing rows l with
  | zero => exact ⟨[], rfl, by simp⟩
  | succ n ih =>
    obtain ⟨r, rows, rfl⟩ := List.exists_cons_of_length_eq_add_one h.length_eq
    obtain ⟨hpos, hrow, hfirst, hcol, hrest⟩ := isLowerFactor_succ_iff.mp hl
    -- the first column found is that of the factor, so what is left is the same
    have hr : r.get 0 = l 0 0 ^ 2 := hfirst
    have hd : √(r.get 0) = l 0 0 := by rw [hr, Real.sqrt_sq hpos.le]
    have hb : ∀ i < n, entry (r :: rows) (i + 1) 0 / l 0 0 = l (i + 1) 0 := fun i hi => by
      rw [hcol i hi, mul_div_cancel_right₀ _ hpos.ne']
    obtain ⟨cs, hcs, hentries⟩ := ih (h.schurRows (l 0 0)) (hrest.congr fun i hi j hj => by
      rw [entry_schurRows h _ hi (hj.trans_lt hi), schur, schur, hb i hi, hb j (hj.trans_lt hi)])
    refine ⟨⟨l 0 0 :: below (l 0 0) rows⟩ :: cs, ?_, fun i hi j hj => ?_⟩
    · rw [lowerColumns_cons, if_pos (hr ▸ pow_pos hpos 2), hd, hcs]
      rfl
    · rcases i, j with ⟨_ | i, _ | j⟩
      · rfl
      · exact (hrow j).symm
      · rw [lowerMatrix_succ_zero, get_below _ r, hb i (by omega)]
      · rw [lowerMatrix_succ_succ, hentries i (by omega) j (by omega)]

/-! ### Completing the square -/

/-- The quadratic form of a matrix. -/
noncomputable def quadratic (n : ℕ) (a : ℕ → ℕ → ℝ) (z : ℕ → ℝ) : ℝ :=
  ∑ i ∈ range n, ∑ j ∈ range n, a i j * (z i * z j)

/-- Symmetric, and positive at all vectors other than zero. -/
structure IsDefinite (n : ℕ) (a : ℕ → ℕ → ℝ) : Prop where
  symm : ∀ i < n, ∀ j < n, a i j = a j i
  pos : ∀ z : ℕ → ℝ, (∃ i < n, z i ≠ 0) → 0 < quadratic n a z

/-- **The square is completed** with the first column of the factor. -/
theorem quadratic_succ {d : ℝ} {b z : ℕ → ℝ} (hfirst : a 0 0 = d ^ 2)
    (hcol : ∀ i < n, a (i + 1) 0 = b i * d) (hsymm : ∀ i < n, a 0 (i + 1) = a (i + 1) 0) :
    quadratic (n + 1) a z =
      (d * z 0 + ∑ i ∈ range n, b i * z (i + 1)) ^ 2 + quadratic n (schur a b) fun i =>
      z (i + 1) := by
  set s := ∑ i ∈ range n, b i * z (i + 1) with hs
  have hrow : ∑ j ∈ range n, a 0 (j + 1) * (z 0 * z (j + 1)) = d * z 0 * s := by
    rw [hs, mul_sum]
    refine sum_congr rfl fun j hj => ?_
    rw [hsymm j (mem_range.mp hj), hcol j (mem_range.mp hj)]
    ring
  have hcolumn : ∑ i ∈ range n, a (i + 1) 0 * (z (i + 1) * z 0) = d * z 0 * s := by
    rw [hs, mul_sum]
    refine sum_congr rfl fun i hi => ?_
    rw [hcol i (mem_range.mp hi)]
    ring
  have hsquare : ∑ i ∈ range n, ∑ j ∈ range n, b i * b j * (z (i + 1) * z (j + 1)) = s ^ 2 := by
    rw [hs, sq, sum_mul_sum]
    exact sum_congr rfl fun i _ => sum_congr rfl fun j _ => by ring
  have hrest : quadratic n (schur a b) (fun i => z (i + 1)) =
      ∑ i ∈ range n, ∑ j ∈ range n, a (i + 1) (j + 1) * (z (i + 1) * z (j + 1)) - s ^ 2 := by
    rw [← hsquare, ← sum_sub_distrib]
    refine sum_congr rfl fun i _ => ?_
    rw [← sum_sub_distrib]
    exact sum_congr rfl fun j _ => sub_mul _ _ _
  rw [quadratic, sum_range_succ', sum_range_succ', hrow, hfirst, hrest]
  simp only [sum_range_succ', sum_add_distrib, hcolumn]
  ring

/-- A vector with a further first coordinate. -/
def prepend (x : ℝ) (z : ℕ → ℝ) : ℕ → ℝ
  | 0 => x
  | i + 1 => z i

theorem IsDefinite.get_zero_pos (h : IsDefinite (n + 1) a) : 0 < a 0 0 := by
  have hpos := h.pos (fun i => if i = 0 then 1 else 0) ⟨0, by omega, by simp⟩
  simpa [quadratic] using hpos

/-- What is left of a definite matrix is definite: the first coordinate can be chosen so that the
square is zero. -/
theorem IsDefinite.schur (h : IsDefinite (n + 1) a) :
    IsDefinite n (schur a fun i => a (i + 1) 0 / √(a 0 0)) where
  symm i hi j hj := by
    rw [Mat.schur, Mat.schur, h.symm (i + 1) (by omega) (j + 1) (by omega),
      mul_comm (a (i + 1) 0 / _)]
  pos z hz := by
    have hd : 0 < √(a 0 0) := Real.sqrt_pos.mpr h.get_zero_pos
    set d := √(a 0 0)
    set b : ℕ → ℝ := fun i => a (i + 1) 0 / d with hb
    obtain ⟨i, hi, hne⟩ := hz
    have hpos := h.pos (prepend (-(∑ i ∈ range n, b i * z i) / d) z) ⟨i + 1, by omega, hne⟩
    rw [quadratic_succ (d := d) (b := b) (Real.sq_sqrt h.get_zero_pos.le).symm
      (fun i _ => (div_mul_cancel₀ _ hd.ne').symm) fun i hi =>
      h.symm 0 (by omega) (i + 1) (by omega)] at hpos
    simp only [prepend] at hpos
    rwa [mul_div_cancel₀ _ hd.ne', neg_add_cancel, zero_pow two_ne_zero, zero_add] at hpos

/-- The factor with a first column and a rest. -/
def joinFactor (d : ℝ) (b : ℕ → ℝ) (l : ℕ → ℕ → ℝ) : ℕ → ℕ → ℝ
  | 0, 0 => d
  | 0, _ + 1 => 0
  | i + 1, 0 => b i
  | i + 1, j + 1 => l i j

/-- **A definite matrix has a factor.** -/
theorem exists_isLowerFactor (h : IsDefinite n a) : ∃ l, IsLowerFactor n a l := by
  induction n generalizing a with
  | zero => exact ⟨fun _ _ => 0, ⟨fun _ _ _ => rfl, by simp⟩, by simp⟩
  | succ n ih =>
    obtain ⟨l, hl⟩ := ih h.schur
    have hd : 0 < √(a 0 0) := Real.sqrt_pos.mpr h.get_zero_pos
    refine ⟨joinFactor √(a 0 0) (fun i => a (i + 1) 0 / √(a 0 0)) l,
      isLowerFactor_succ_iff.mpr ⟨hd, fun _ => rfl, ?_, fun i _ => ?_, hl⟩⟩
    · exact (Real.sq_sqrt h.get_zero_pos.le).symm
    · exact (div_mul_cancel₀ _ hd.ne').symm

end Smoothing.Mat
