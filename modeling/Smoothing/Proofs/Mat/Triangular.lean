import Mathlib
import Smoothing.Mat.Triangular
import Smoothing.Proofs.Mat

/-!
# Triangular factors by reflections

The triangular factor `R` of a matrix `A` has `‖R x‖ = ‖A x‖` for every vector `x`, which is
`RᵀR = AᵀA`, and nothing below its diagonal (`isTriangularFactor_triangular`). These are the two
facts that everything built on the factorization uses, and all that it uses.

The reflection that clears a column `c` has the normal `c + s e₀` up to its length, where `s` is the
norm of `c` with the sign of `c₀`. It takes `c` to `-s e₀` (`reflection_column`) and keeps the norm
of every vector (`sum_sq_reflection`), so a step of the factorization keeps the sum of the squared
values of the rows (`rowsSq_clearColumn`).
-/

open Finset

namespace Smoothing.Mat

/-- What a triangular factor `R` of a matrix `A` is: an upper triangular matrix with as many rows as
the smaller side of `A` and `‖R x‖ = ‖A x‖` for every `x`. -/
structure IsTriangularFactor (a r : Mat ℝ) : Prop where
  cols : r.cols = a.cols
  height : r.height = min a.height a.cols
  upper : ∀ i j, j < i → r.get i j = 0
  normSq : ∀ x : Vec ℝ, x.size = a.cols → (r.mulVec x).normSq = (a.mulVec x).normSq

/-! ### Reflections -/

theorem sum_sq_reflection {m : ℕ} {n u : ℕ → ℝ} (hn : ∑ i ∈ range m, n i ^ 2 = 1) :
    ∑ i ∈ range m, (u i - 2 * n i * ∑ k ∈ range m, n k * u k) ^ 2 = ∑ i ∈ range m, u i ^ 2 := by
  set p := ∑ k ∈ range m, n k * u k with hp
  calc ∑ i ∈ range m, (u i - 2 * n i * p) ^ 2
      = ∑ i ∈ range m, (u i ^ 2 - 4 * p * (n i * u i) + 4 * p ^ 2 * n i ^ 2) :=
        sum_congr rfl fun i _ => by ring
    _ = ∑ i ∈ range m, u i ^ 2 - 4 * p * p + 4 * p ^ 2 * 1 := by
        rw [sum_add_distrib, sum_sub_distrib, ← mul_sum, ← mul_sum, hn, ← hp]
    _ = ∑ i ∈ range m, u i ^ 2 := by ring

section Column
variable {m : ℕ} {c v n : ℕ → ℝ} {s t : ℝ} (hm : 0 < m)
  (hv : ∀ i, v i = c i + if i = 0 then s else 0) (hs : s ^ 2 = ∑ i ∈ range m, c i ^ 2)
  (ht : t ^ 2 = 2 * (∑ i ∈ range m, c i ^ 2 + c 0 * s))
include hm hv ht

include hs in
theorem sum_sq_normal : ∑ i ∈ range m, v i ^ 2 = t ^ 2 := by
  have h0 : ∑ i ∈ range m, (if i = 0 then s else 0) * (2 * c i + s) = s * (2 * c 0 + s) := by
    rw [sum_eq_single_of_mem 0 (mem_range.mpr hm) fun i _ hi => by simp [hi]]
    simp
  calc ∑ i ∈ range m, v i ^ 2
      = ∑ i ∈ range m, (c i ^ 2 + (if i = 0 then s else 0) * (2 * c i + s)) := by
        refine sum_congr rfl fun i _ => ?_
        rw [hv]
        split_ifs <;> ring
    _ = ∑ i ∈ range m, c i ^ 2 + s * (2 * c 0 + s) := by rw [sum_add_distrib, h0]
    _ = t ^ 2 := by rw [ht, ← hs]; ring

theorem reflection_column (ht0 : t ≠ 0) (hn : ∀ i, n i = v i / t) (i : ℕ) :
    c i - 2 * n i * ∑ k ∈ range m, n k * c k = if i = 0 then -s else 0 := by
  have h0 : ∑ k ∈ range m, (if k = 0 then s else 0) * c k = s * c 0 := by
    rw [sum_eq_single_of_mem 0 (mem_range.mpr hm) fun i _ hi => by simp [hi]]
    simp
  have hvc : ∑ k ∈ range m, v k * c k = t ^ 2 / 2 := by
    calc ∑ k ∈ range m, v k * c k
        = ∑ k ∈ range m, (c k ^ 2 + (if k = 0 then s else 0) * c k) :=
          sum_congr rfl fun k _ => by rw [hv]; ring
      _ = ∑ k ∈ range m, c k ^ 2 + s * c 0 := by rw [sum_add_distrib, h0]
      _ = t ^ 2 / 2 := by rw [ht]; ring
  have hnc : ∑ k ∈ range m, n k * c k = t / 2 := by
    calc ∑ k ∈ range m, n k * c k = (∑ k ∈ range m, v k * c k) / t := by
          rw [sum_div]
          exact sum_congr rfl fun k _ => by rw [hn]; ring
      _ = t / 2 := by
          rw [hvc]
          field_simp
  rw [hnc, hn]
  have : 2 * (v i / t) * (t / 2) = v i := by field_simp
  rw [this, hv]
  split_ifs <;> ring

end Column

/-! ### Reflected rows -/

section Reflect
variable {normal : Vec ℝ} {sign : ℝ} {w : ℕ} {rows : List (Vec ℝ)}

theorem length_reflect (hl : normal.size = rows.length) :
    (reflect normal sign w rows).length = rows.length := by
  unfold Vec.size at hl
  simp [reflect, hl]

theorem size_getD_of_forall_size {w : ℕ} {rows : List (Vec ℝ)} (hw : ∀ r ∈ rows, r.size = w) {i : ℕ}
    (hi : i < rows.length) : (rows.getD i ⟨[]⟩).size = w := by
  rw [List.getD_eq_getElem _ _ hi]
  exact hw _ (List.getElem_mem hi)

theorem apply_getD_of_forall_size {w : ℕ} {rows : List (Vec ℝ)} (hw : ∀ r ∈ rows, r.size = w)
    (z : Vec ℝ) {i : ℕ} (hi : i < rows.length) :
    (rows.getD i ⟨[]⟩).apply z = ∑ j ∈ range w, (rows.getD i ⟨[]⟩).get j * z.get j :=
  Vec.apply_eq_sum _ _ (by rw [size_getD_of_forall_size hw hi]; omega)

theorem dot_getD_columnsOf (hl : normal.size = rows.length) {j : ℕ} (hj : j < w) :
    normal.dot ((columnsOf w (rows.map Vec.coords)).getD j ⟨[]⟩) =
      ∑ k ∈ range rows.length, normal.get k * (rows.getD k ⟨[]⟩).get j := by
  rw [Vec.dot_eq_sum _ _ (n := rows.length) (by rw [hl]; omega)]
  refine sum_congr rfl fun k _ => ?_
  have hr : (rows.map Vec.coords).getD k [] = (rows.getD k ⟨[]⟩).coords :=
    List.getD_map _ ⟨[]⟩ Vec.coords
  rw [get_columnsOf hj, hr]
  rfl

theorem getD_reflect (hl : normal.size = rows.length) {i : ℕ} (hi : i < rows.length) :
    (reflect normal sign w rows).getD i ⟨[]⟩ =
      Vec.zipWith (fun f y => f * normal.get i + sign * y)
        ⟨(columnsOf w (rows.map Vec.coords)).map fun c => normal.dot c * (sign * -Scalar.two)⟩
        (rows.getD i ⟨[]⟩) := by
  have hn : i < normal.coords.length := by
    unfold Vec.size at hl
    omega
  rw [List.getD_eq_getElem _ _ (by rw [length_reflect hl]; exact hi), List.getD_eq_getElem _ _ hi,
    Vec.get_eq_getElem hn]
  simp only [reflect, List.getElem_zipWith]

theorem size_of_mem_reflect (hl : normal.size = rows.length) (hw : ∀ r ∈ rows, r.size = w) :
    ∀ r ∈ reflect normal sign w rows, r.size = w := by
  intro r hr
  obtain ⟨i, hi, rfl⟩ := List.getElem_of_mem hr
  have hi' : i < rows.length := by rwa [length_reflect hl] at hi
  rw [← List.getD_eq_getElem _ ⟨[]⟩ hi, getD_reflect hl hi', Vec.size_zipWith,
    size_getD_of_forall_size hw hi']
  simp

/-- The columns of reflected rows are the reflections of the columns, times the sign. -/
theorem get_reflect (hl : normal.size = rows.length) (hw : ∀ r ∈ rows, r.size = w) {i j : ℕ}
    (hi : i < rows.length) (hj : j < w) :
    ((reflect normal sign w rows).getD i ⟨[]⟩).get j =
      sign * ((rows.getD i ⟨[]⟩).get j -
        2 * normal.get i * ∑ k ∈ range rows.length, normal.get k * (rows.getD k ⟨[]⟩).get j) := by
  have hc : j < (columnsOf w (rows.map Vec.coords)).length := by simpa using hj
  rw [getD_reflect hl hi, Vec.get_zipWith_of_lt (by simpa using hj)
      (by rw [size_getD_of_forall_size hw hi]; exact hj),
    Vec.get_eq_getElem (by simpa using hj), List.getElem_map, ← List.getD_eq_getElem _ ⟨[]⟩ hc,
    dot_getD_columnsOf hl hj, Scalar.two_real]
  ring

theorem apply_reflect (hl : normal.size = rows.length) (hw : ∀ r ∈ rows, r.size = w) (z : Vec ℝ)
    {i : ℕ} (hi : i < rows.length) :
    ((reflect normal sign w rows).getD i ⟨[]⟩).apply z =
      sign * ((rows.getD i ⟨[]⟩).apply z -
        2 * normal.get i * ∑ k ∈ range rows.length, normal.get k * (rows.getD k ⟨[]⟩).apply z) := by
  have hswap : ∑ k ∈ range rows.length, normal.get k * (rows.getD k ⟨[]⟩).apply z =
      ∑ j ∈ range w,
        (∑ k ∈ range rows.length, normal.get k * (rows.getD k ⟨[]⟩).get j) * z.get j := by
    simp only [sum_mul]
    rw [sum_comm]
    refine sum_congr rfl fun k hk => ?_
    rw [apply_getD_of_forall_size hw z (mem_range.mp hk), mul_sum]
    exact sum_congr rfl fun j _ => by ring
  rw [apply_getD_of_forall_size (size_of_mem_reflect hl hw) z (by rwa [length_reflect hl]),
    apply_getD_of_forall_size hw z hi, hswap, mul_sum, ← sum_sub_distrib, mul_sum]
  refine sum_congr rfl fun j hj => ?_
  rw [get_reflect hl hw hi (mem_range.mp hj)]
  ring

end Reflect

/-! ### One column -/

/-- The sum of the squared values of the rows of a step at a vector `(a, z)`. -/
noncomputable def ColumnStep.sq (s : ColumnStep ℝ) (a : ℝ) (z : Vec ℝ) : ℝ :=
  (s.pivot * a + (⟨s.top⟩ : Vec ℝ).apply z) ^ 2 + rowsSq s.rest z

/-- A step has `m` rows of width `w` after the first row and column. -/
structure ColumnStep.HasSize (s : ColumnStep ℝ) (m w : ℕ) : Prop where
  top : s.top.length = w
  rest : s.rest.length = m
  width : ∀ r ∈ s.rest, r.size = w

theorem hasSize_splitTop (pivot : ℝ) {rows : List (Vec ℝ)} {m w : ℕ} (hm : rows.length = m + 1)
    (hw : ∀ r ∈ rows, r.size = w) : (splitTop pivot rows).HasSize m w := by
  obtain ⟨r, rest, rfl⟩ := List.exists_cons_of_length_eq_add_one hm
  exact ⟨hw r List.mem_cons_self, by simpa [splitTop] using hm,
    fun r' h => hw r' (List.mem_cons_of_mem _ h)⟩

theorem sq_splitTop (pivot : ℝ) {rows : List (Vec ℝ)} (hm : rows ≠ []) (a : ℝ) (z : Vec ℝ) :
    (splitTop pivot rows).sq a z = ∑ i ∈ range rows.length,
      ((if i = 0 then pivot else 0) * a + (rows.getD i ⟨[]⟩).apply z) ^ 2 := by
  obtain ⟨r, rest, rfl⟩ := List.exists_cons_of_ne_nil hm
  rw [List.length_cons, sum_range_succ', add_comm, ColumnStep.sq, splitTop, rowsSq_eq_sum]
  simp

/-- The first column of a list of rows. -/
def firstColumn (rows : List (Vec ℝ)) : Vec ℝ := ⟨rows.map fun r => r.coords.headD 0⟩

/-- The other columns of a list of rows. -/
def otherColumns (rows : List (Vec ℝ)) : List (Vec ℝ) := rows.map fun r => ⟨r.coords.tail⟩

/-- The norm of a column with the sign of its first entry. -/
noncomputable def signedNorm (c : Vec ℝ) : ℝ := (if 0 ≤ c.get 0 then 1 else -1) * Real.sqrt c.normSq

/-- The squared length of the normal before it is scaled. -/
noncomputable def normalSq (c : Vec ℝ) : ℝ := Scalar.two * (c.normSq + c.get 0 * signedNorm c)

theorem normalSq_eq (c : Vec ℝ) : normalSq c = 2 * (c.normSq + c.get 0 * signedNorm c) := by
  rw [normalSq, Scalar.two_real]

/-- The unit normal of the reflection that clears a column. -/
noncomputable def unitNormal (c : Vec ℝ) : Vec ℝ :=
  let scaled := (addToFirst c.coords (signedNorm c)).unscale (Real.sqrt (normalSq c))
  scaled.unscale scaled.norm

theorem clearColumn_eq (w : ℕ) (rows : List (Vec ℝ)) :
    clearColumn w rows = splitTop |signedNorm (firstColumn rows)|
      (if normalSq (firstColumn rows) = 0 then otherColumns rows
        else reflect (unitNormal (firstColumn rows))
          (Scalar.signum (-signedNorm (firstColumn rows))) w (otherColumns rows)) := by
  have h0 : (rows.map fun r => r.coords.headD 0).headD 0 = (firstColumn rows).get 0 := by
    cases rows <;> simp [firstColumn]
  have hn : ((firstColumn rows).normSq + (if 0 ≤ (firstColumn rows).get 0 then
      (firstColumn rows).get 0 else -(firstColumn rows).get 0) *
        Real.sqrt (firstColumn rows).normSq) * 2 = normalSq (firstColumn rows) := by
    rw [normalSq_eq, signedNorm]
    split_ifs <;> ring
  unfold clearColumn
  by_cases hc : 0 ≤ (firstColumn rows).get 0
  · have hs : signedNorm (firstColumn rows) = 1 * Real.sqrt (firstColumn rows).normSq := by
      rw [signedNorm, if_pos hc]
    rw [if_pos hc] at hn
    simp only [h0, if_pos hc, Scalar.two_real, beq_iff_eq]
    rw [unitNormal, hs, ← hn]
    exact (apply_ite (splitTop _) _ _ _).symm
  · have hs : signedNorm (firstColumn rows) = -1 * Real.sqrt (firstColumn rows).normSq := by
      rw [signedNorm, if_neg hc]
    rw [if_neg hc] at hn
    simp only [h0, if_neg hc, Scalar.two_real, beq_iff_eq]
    rw [unitNormal, hs, ← hn]
    exact (apply_ite (splitTop _) _ _ _).symm

section ClearColumn
variable {c : Vec ℝ}

theorem signedNorm_sq (c : Vec ℝ) : signedNorm c ^ 2 = c.normSq := by
  rw [signedNorm, mul_pow, Real.sq_sqrt c.normSq_nonneg]
  split_ifs <;> norm_num

theorem get_zero_mul_signedNorm_nonneg (c : Vec ℝ) : 0 ≤ c.get 0 * signedNorm c := by
  have h := Real.sqrt_nonneg c.normSq
  unfold signedNorm
  split_ifs with h0
  · rw [one_mul]
    exact mul_nonneg h0 h
  · rw [neg_one_mul, mul_neg, ← neg_mul]
    exact mul_nonneg (by linarith) h

theorem normalSq_nonneg (c : Vec ℝ) : 0 ≤ normalSq c := by
  have := c.normSq_nonneg
  have := get_zero_mul_signedNorm_nonneg c
  rw [normalSq_eq]
  linarith

theorem get_eq_zero_of_normalSq_eq_zero (h : normalSq c = 0) (i : ℕ) : c.get i = 0 := by
  have h1 := c.normSq_nonneg
  have h2 := get_zero_mul_signedNorm_nonneg c
  have h3 : c.normSq = 0 := by
    rw [normalSq_eq] at h
    linarith
  by_cases hi : i < c.size
  · rw [Vec.normSq_eq_sum c le_rfl, sum_eq_zero_iff_of_nonneg fun i _ => sq_nonneg _] at h3
    exact pow_eq_zero_iff (two_ne_zero) |>.mp (h3 i (mem_range.mpr hi))
  · exact Vec.get_of_size_le (not_lt.mp hi)

theorem get_addToFirst (hc : c.coords ≠ []) (a : ℝ) (i : ℕ) :
    (addToFirst c.coords a).get i = c.get i + if i = 0 then a else 0 := by
  obtain ⟨_ | ⟨x, l⟩⟩ := c
  · exact absurd rfl hc
  · cases i <;> simp [addToFirst]

theorem size_addToFirst (l : List ℝ) (a : ℝ) : (addToFirst l a).size = l.length := by
  cases l <;> simp [addToFirst]

theorem sum_sq_addToFirst (hc : c.coords ≠ []) :
    ∑ i ∈ range c.size, (addToFirst c.coords (signedNorm c)).get i ^ 2 =
      Real.sqrt (normalSq c) ^ 2 := by
  have ht := Real.sq_sqrt (normalSq_nonneg c)
  rw [normalSq_eq, Vec.normSq_eq_sum c le_rfl] at ht
  refine sum_sq_normal (List.length_pos_iff.mpr hc) (get_addToFirst hc _) ?_ ?_
  · rw [signedNorm_sq, Vec.normSq_eq_sum c le_rfl]
  · rw [← ht, normalSq_eq, Vec.normSq_eq_sum c le_rfl]

theorem get_unitNormal (hc : c.coords ≠ []) (h : normalSq c ≠ 0) (i : ℕ) :
    (unitNormal c).get i = (addToFirst c.coords (signedNorm c)).get i / Real.sqrt (normalSq c) := by
  have ht : Real.sqrt (normalSq c) ≠ 0 := by rwa [Ne, Real.sqrt_eq_zero (normalSq_nonneg c)]
  have hn : ((addToFirst c.coords (signedNorm c)).unscale (Real.sqrt (normalSq c))).normSq = 1 := by
    rw [Vec.normSq_eq_sum _ (n := c.size) 
      (by rw [Vec.size_unscale, size_addToFirst]; exact le_rfl)]
    simp only [Vec.get_unscale, div_pow]
    rw [← sum_div, sum_sq_addToFirst hc, div_self (pow_ne_zero 2 ht)]
  rw [unitNormal, Vec.get_unscale, Vec.get_unscale, Vec.norm, hn]
  simp

/-- The reflection of a column that is not zero, times its sign. -/
theorem unitNormal_column (hc : c.coords ≠ []) (h : normalSq c ≠ 0) (i : ℕ) :
    Scalar.signum (-signedNorm c) * (c.get i -
      2 * (unitNormal c).get i * ∑ k ∈ range c.size, (unitNormal c).get k * c.get k) =
        if i = 0 then |signedNorm c| else 0 := by
  have ht : Real.sqrt (normalSq c) ≠ 0 := by rwa [Ne, Real.sqrt_eq_zero (normalSq_nonneg c)]
  rw [reflection_column (m := c.size) (List.length_pos_iff.mpr hc) (get_addToFirst hc _) ?_ ht
    (get_unitNormal hc h), Scalar.signum_real]
  · by_cases hi : i = 0
    · rw [if_pos hi, if_pos hi]
      split_ifs with hs
      · rw [abs_of_pos (by linarith)]
        ring
      · rw [abs_of_nonpos (by linarith), one_mul]
    · rw [if_neg hi, if_neg hi, mul_zero]
  · rw [Real.sq_sqrt (normalSq_nonneg c), normalSq_eq, Vec.normSq_eq_sum c le_rfl]

theorem sum_sq_unitNormal (hc : c.coords ≠ []) (h : normalSq c ≠ 0) :
    ∑ i ∈ range c.size, (unitNormal c).get i ^ 2 = 1 := by
  have ht : Real.sqrt (normalSq c) ≠ 0 := by rwa [Ne, Real.sqrt_eq_zero (normalSq_nonneg c)]
  simp only [get_unitNormal hc h, div_pow]
  rw [← sum_div, sum_sq_addToFirst hc, div_self (pow_ne_zero 2 ht)]

end ClearColumn

section Step
variable {rows : List (Vec ℝ)} {m w : ℕ} (hm : rows.length = m + 1)
  (hw : ∀ r ∈ rows, r.size = w + 1)

theorem size_firstColumn (rows : List (Vec ℝ)) : (firstColumn rows).size = rows.length := by
  simp [firstColumn]

theorem length_otherColumns (rows : List (Vec ℝ)) : (otherColumns rows).length = rows.length := by
  simp [otherColumns]

theorem size_unitNormal (c : Vec ℝ) : (unitNormal c).size = c.size := by
  rw [unitNormal, Vec.size_unscale, Vec.size_unscale, size_addToFirst]
  rfl

theorem size_normal_rows (rows : List (Vec ℝ)) :
    (unitNormal (firstColumn rows)).size = (otherColumns rows).length := by
  rw [size_unitNormal, size_firstColumn, length_otherColumns]

include hw

theorem size_otherColumns : ∀ r ∈ otherColumns rows, r.size = w := by
  intro r hr
  obtain ⟨r', hr', rfl⟩ := List.mem_map.mp hr
  have := hw r' hr'
  unfold Vec.size at this
  simp [this]

theorem apply_eq_first_add_other (a : ℝ) (z : List ℝ) {i : ℕ} (hi : i < rows.length) :
    (rows.getD i ⟨[]⟩).apply ⟨a :: z⟩ =
      (firstColumn rows).get i * a + ((otherColumns rows).getD i ⟨[]⟩).apply ⟨z⟩ := by
  have hf : (firstColumn rows).get i = (rows[i]).coords.headD 0 := by
    rw [Vec.get_eq_getElem (by simpa [firstColumn] using hi)]
    simp [firstColumn]
  rw [hf, List.getD_eq_getElem _ _ hi, List.getD_eq_getElem _ _ (by simpa [otherColumns] using hi)]
  simp only [otherColumns, List.getElem_map]
  obtain ⟨x, l, hl⟩ := List.exists_cons_of_length_eq_add_one (hw _ (List.getElem_mem hi))
  rw [hl, List.headD_cons, List.tail_cons, ← Vec.cons_apply_cons, ← hl]

theorem apply_reflect_otherColumns (h : normalSq (firstColumn rows) ≠ 0) (a : ℝ)
    (z : List ℝ) {i : ℕ} (hi : i < rows.length) :
    (if i = 0 then |signedNorm (firstColumn rows)| else 0) * a +
        ((reflect (unitNormal (firstColumn rows)) (Scalar.signum (-signedNorm (firstColumn rows))) w
          (otherColumns rows)).getD i ⟨[]⟩).apply ⟨z⟩ =
      Scalar.signum (-signedNorm (firstColumn rows)) * ((rows.getD i ⟨[]⟩).apply ⟨a :: z⟩ -
        2 * (unitNormal (firstColumn rows)).get i * ∑ k ∈ range rows.length,
          (unitNormal (firstColumn rows)).get k * (rows.getD k ⟨[]⟩).apply ⟨a :: z⟩) := by
  set c := firstColumn rows with hc
  have hcs : c.size = rows.length := size_firstColumn rows
  have hc0 : c.coords ≠ [] := List.ne_nil_of_length_pos (by change 0 < c.size; omega)
  have hsum : ∑ k ∈ range rows.length, (unitNormal c).get k * (rows.getD k ⟨[]⟩).apply ⟨a :: z⟩ =
      (∑ k ∈ range rows.length, (unitNormal c).get k * c.get k) * a +
        ∑ k ∈ range rows.length,
          (unitNormal c).get k * ((otherColumns rows).getD k ⟨[]⟩).apply ⟨z⟩ := by
    rw [sum_mul, ← sum_add_distrib]
    refine sum_congr rfl fun k hk => ?_
    rw [apply_eq_first_add_other hw a z (mem_range.mp hk)]
    ring
  rw [hsum, apply_eq_first_add_other hw a z hi,
    apply_reflect (size_normal_rows rows) (size_otherColumns hw) _
      (by rw [length_otherColumns]; exact hi),
    length_otherColumns, ← unitNormal_column hc0 h i, hcs]
  ring

include hm

theorem hasSize_clearColumn : (clearColumn w rows).HasSize m w := by
  have ho : (otherColumns rows).length = m + 1 := by rw [length_otherColumns, hm]
  rw [clearColumn_eq]
  split_ifs
  · exact hasSize_splitTop _ ho (size_otherColumns hw)
  · exact hasSize_splitTop _ (by rw [length_reflect (size_normal_rows rows), ho])
      (size_of_mem_reflect (size_normal_rows rows) (size_otherColumns hw))

/-- **Clearing a column keeps the sum of the squared values of the rows.** -/
theorem sq_clearColumn (a : ℝ) (z : List ℝ) :
    (clearColumn w rows).sq a ⟨z⟩ = rowsSq rows ⟨a :: z⟩ := by
  set c := firstColumn rows with hc
  have hcs : c.size = rows.length := size_firstColumn rows
  have hos : (otherColumns rows).length = rows.length := length_otherColumns rows
  rw [clearColumn_eq, rowsSq_eq_sum, ← hc]
  split_ifs with h
  · have hz := get_eq_zero_of_normalSq_eq_zero h
    have hs : |signedNorm c| = 0 := by
      rw [abs_eq_zero, ← pow_eq_zero_iff two_ne_zero, signedNorm_sq, Vec.normSq_eq_sum c le_rfl]
      exact sum_eq_zero fun i _ => by rw [hz, zero_pow two_ne_zero]
    rw [sq_splitTop _ (List.ne_nil_of_length_pos (by omega)), hos]
    refine sum_congr rfl fun i hi => ?_
    rw [apply_eq_first_add_other hw a z (mem_range.mp hi), ← hc, hz, hs, ite_self]
  · have hn := size_normal_rows rows
    have hc0 : c.coords ≠ [] := List.ne_nil_of_length_pos (by change 0 < c.size; omega)
    have hunit := sum_sq_unitNormal hc0 h
    have hsign : Scalar.signum (-signedNorm c) ^ 2 = 1 := by
      rw [Scalar.signum_real]
      split_ifs <;> norm_num
    rw [hcs] at hunit
    rw [sq_splitTop _ (List.ne_nil_of_length_pos (by rw [length_reflect hn]; omega)),
      length_reflect hn, hos]
    refine Eq.trans (sum_congr rfl fun i hi => ?_) (sum_sq_reflection hunit)
    rw [apply_reflect_otherColumns hw h a z (mem_range.mp hi), mul_pow, hsign, one_mul]

end Step

/-! ### All columns -/

theorem size_cons_zero (r : Vec ℝ) : (⟨0 :: r.coords⟩ : Vec ℝ).size = r.size + 1 := rfl

theorem rowsSq_map_cons_zero (rows : List (Vec ℝ)) (a : ℝ) (z : List ℝ) :
    rowsSq (rows.map fun r => ⟨0 :: r.coords⟩) ⟨a :: z⟩ = rowsSq rows ⟨z⟩ := by
  unfold rowsSq
  rw [List.map_map]
  congr 1
  refine List.map_congr_left fun r _ => ?_
  change (Vec.apply ⟨0 :: r.coords⟩ ⟨a :: z⟩) ^ 2 = _
  rw [Vec.cons_apply_cons, zero_mul, zero_add]

section Sizes
variable {α : Type} [Scalar α]

theorem length_triangularRows {n w : ℕ} {rows : List (Vec α)} :
    (triangularRows n w rows).length = n := by
  induction n generalizing w rows with
  | zero => rfl
  | succ n ih => rw [triangularRows, List.length_cons, List.length_map, ih]

theorem height_triangular (a : Mat α) : a.triangular.height = min a.height a.cols := by
  rw [height, triangular, ofRows, List.length_map, length_triangularRows]

end Sizes

theorem size_of_mem_triangularRows {n w : ℕ} {rows : List (Vec ℝ)} (hn : n ≤ min rows.length w)
    (hw : ∀ r ∈ rows, r.size = w) : ∀ r ∈ triangularRows n w rows, r.size = w := by
  induction n generalizing w rows with
  | zero => simp [triangularRows]
  | succ n ih =>
    obtain ⟨w, rfl⟩ := Nat.exists_eq_add_of_lt (show 0 < w by omega)
    obtain ⟨m, hm⟩ := Nat.exists_eq_add_of_lt (show 0 < rows.length by omega)
    simp only [zero_add] at hn hw hm ⊢
    have hs := hasSize_clearColumn hm hw
    intro r hr
    rw [triangularRows] at hr
    simp only [Nat.add_sub_cancel, List.mem_cons, List.mem_map] at hr
    rcases hr with rfl | ⟨r, hr, rfl⟩
    · simp [hs.top]
    · rw [size_cons_zero, ih (by rw [hs.rest]; omega) hs.width r hr]

theorem get_map_cons_zero (rows : List (Vec ℝ)) (i : ℕ) :
    ((rows.map fun r => ⟨0 :: r.coords⟩).getD i ⟨[]⟩ : Vec ℝ).get 0 = 0 := by
  by_cases hi : i < rows.length
  · rw [List.getD_eq_getElem _ _ (by rwa [List.length_map]), List.getElem_map, Vec.get_cons_zero]
  · rw [List.getD_eq_default _ _ (by rw [List.length_map]; exact not_lt.mp hi), Vec.get_nil]

theorem get_map_cons_succ (rows : List (Vec ℝ)) (i j : ℕ) :
    ((rows.map fun r => ⟨0 :: r.coords⟩).getD i ⟨[]⟩ : Vec ℝ).get (j + 1) =
    (rows.getD i ⟨[]⟩).get j := by
  by_cases hi : i < rows.length
  · rw [List.getD_eq_getElem _ _ (by rwa [List.length_map]), List.getElem_map, Vec.get_cons_succ,
      List.getD_eq_getElem _ _ hi]
  · rw [List.getD_eq_default _ _ (by rw [List.length_map]; exact not_lt.mp hi),
      List.getD_eq_default _ _ (not_lt.mp hi), Vec.get_nil, Vec.get_nil]

theorem get_triangularRows_of_lt {n w : ℕ} {rows : List (Vec ℝ)} {i j : ℕ} (hij : j < i) :
    ((triangularRows n w rows).getD i ⟨[]⟩).get j = 0 := by
  induction n generalizing w rows i j with
  | zero => simp [triangularRows]
  | succ n ih =>
    obtain ⟨i, rfl⟩ := Nat.exists_eq_add_of_lt (show 0 < i by omega)
    rw [zero_add, triangularRows, List.getD_cons_succ]
    cases j with
    | zero => exact get_map_cons_zero _ i
    | succ j =>
      rw [get_map_cons_succ]
      exact ih (by omega)

theorem rowsSq_triangularRows {n w : ℕ} {rows : List (Vec ℝ)} (hn : n = min rows.length w)
    (hw : ∀ r ∈ rows, r.size = w) {z : List ℝ} (hz : z.length = w) :
    rowsSq (triangularRows n w rows) ⟨z⟩ = rowsSq rows ⟨z⟩ := by
  induction n generalizing w rows z with
  | zero =>
    rw [triangularRows, rowsSq_nil, rowsSq_eq_sum]
    rcases Nat.eq_zero_or_pos w with rfl | hw0
    · rw [List.length_eq_zero_iff.mp hz]
      exact (sum_eq_zero fun i _ => by rw [Vec.apply_nil, zero_pow two_ne_zero]).symm
    · rw [show rows.length = 0 by omega, range_zero, sum_empty]
  | succ n ih =>
    obtain ⟨w, rfl⟩ := Nat.exists_eq_add_of_lt (show 0 < w by omega)
    obtain ⟨m, hm⟩ := Nat.exists_eq_add_of_lt (show 0 < rows.length by omega)
    obtain ⟨a, z, rfl⟩ := List.exists_cons_of_length_eq_add_one hz
    simp only [zero_add] at hn hw hm ⊢
    have hs := hasSize_clearColumn hm hw
    rw [triangularRows, rowsSq_cons, Nat.add_sub_cancel, rowsSq_map_cons_zero,
      ih (by rw [hs.rest]; omega) hs.width (by simpa using hz), Vec.cons_apply_cons,
      ← sq_clearColumn hm hw, ColumnStep.sq]

/-- **The triangular factor of a matrix is one**: it is upper triangular and keeps all norms. -/
theorem isTriangularFactor_triangular (a : Mat ℝ) : IsTriangularFactor a a.triangular := by
  have hrows : a.triangular.rows = triangularRows (min a.height a.cols) a.cols a.rows :=
    rows_ofRows (size_of_mem_triangularRows le_rfl a.width)
  refine ⟨rfl, a.height_triangular, fun i j hij => ?_, fun x hx => ?_⟩
  · rw [Mat.get, hrows]
    exact get_triangularRows_of_lt hij
  · rw [normSq_mulVec, normSq_mulVec, hrows]
    exact rowsSq_triangularRows rfl a.width hx

theorem IsTriangularFactor.sq_get_zero {a r : Mat ℝ} (h : IsTriangularFactor a r)
    (hcols : 0 < a.cols) : r.get 0 0 ^ 2 = ∑ i ∈ range a.height, a.get i 0 ^ 2 := by
  set x : Vec ℝ := ⟨(List.range a.cols).map fun j => if j = 0 then 1 else 0⟩ with hx
  have hcolumn : ∀ m : Mat ℝ, m.cols = a.cols → (m.mulVec x).normSq = ∑ i ∈ range m.height,
      m.get i 0 ^ 2 := by
    intro m hm
    rw [Vec.normSq_eq_sum _ le_rfl, size_mulVec]
    refine sum_congr rfl fun i _ => ?_
    have hcoord : ∀ j ∈ range m.cols, m.get i j * x.get j = if j = 0 then m.get i j else 0 := by
      intro j hj
      have hj' : j < a.cols := hm ▸ mem_range.mp hj
      have hxj : x.get j = if j = 0 then 1 else 0 := getD_map_range _ hj'
      rw [hxj, mul_ite, mul_one, mul_zero]
    rw [get_mulVec, sum_congr rfl hcoord, sum_ite_eq' (range m.cols) 0,
      if_pos (mem_range.mpr (hm ▸ hcols))]
  have hpivot : ∑ i ∈ range r.height, r.get i 0 ^ 2 = r.get 0 0 ^ 2 := by
    refine sum_eq_single 0 (fun i _ hi => ?_) fun hheight => ?_
    · rw [h.upper i 0 (Nat.pos_of_ne_zero hi), zero_pow two_ne_zero]
    · rw [get_of_height_le (by simpa using hheight), zero_pow two_ne_zero]
  rw [← hpivot, ← hcolumn r h.cols,
    h.normSq x (by rw [hx, Vec.size_mk, List.length_map, List.length_range]), hcolumn a rfl]

/-! ### One row -/

theorem columnsOf_single (bs : List ℝ) : columnsOf bs.length [bs] = bs.map fun b => ⟨[b]⟩ := by
  induction bs with
  | nil => rfl
  | cons b bs ih =>
    rw [List.map_cons, ← ih]
    rfl

theorem normSq_single (a : ℝ) : (⟨[a]⟩ : Vec ℝ).normSq = a ^ 2 := by
  rw [Vec.normSq_eq_sum (n := 1) _ le_rfl, sum_range_one, Vec.get_cons_zero]

theorem signedNorm_single {a : ℝ} (ha : 0 < a) : signedNorm ⟨[a]⟩ = a := by
  rw [signedNorm, normSq_single, Vec.get_cons_zero, if_pos ha.le, one_mul, Real.sqrt_sq ha.le]

theorem normalSq_single {a : ℝ} (ha : 0 < a) : normalSq ⟨[a]⟩ = (a + a) ^ 2 := by
  rw [normalSq_eq, signedNorm_single ha, normSq_single, Vec.get_cons_zero]
  ring

theorem unitNormal_single {a : ℝ} (ha : 0 < a) : unitNormal ⟨[a]⟩ = ⟨[1]⟩ := by
  have hscaled : (addToFirst [a] a).unscale (a + a) = ⟨[1]⟩ := by
    change (⟨[(a + a) / (a + a)]⟩ : Vec ℝ) = ⟨[1]⟩
    rw [div_self (by linarith)]
  have hnorm : (⟨[1]⟩ : Vec ℝ).norm = 1 := by
    rw [Vec.norm, normSq_single, one_pow, Scalar.sqrt_real, Real.sqrt_one]
  simp only [unitNormal, signedNorm_single ha, normalSq_single ha,
    Real.sqrt_sq (by linarith : 0 ≤ a + a), hscaled, hnorm]
  change (⟨[(1 : ℝ) / 1]⟩ : Vec ℝ) = ⟨[1]⟩
  rw [div_one]

theorem reflect_single (bs : List ℝ) : reflect ⟨[1]⟩ (-1) bs.length [⟨bs⟩] = [⟨bs⟩] := by
  have hdot : ∀ b : ℝ, (⟨[1]⟩ : Vec ℝ).dot ⟨[b]⟩ = b := fun b => by
    rw [Vec.dot_eq_sum (n := 1) _ _ le_rfl, sum_range_one, Vec.get_cons_zero,
      Vec.get_cons_zero, one_mul]
  have hrow : ∀ bs : List ℝ, List.zipWith (fun f y => f * (1 : ℝ) + -1 * y)
      (bs.map fun b => b * (-1 * -(Scalar.two : ℝ))) bs = bs := by
    intro bs
    induction bs with
    | nil => rfl
    | cons b bs ih =>
      rw [List.map_cons, List.zipWith_cons_cons, ih, Scalar.two_real]
      congr 1
      ring
  simp only [reflect, List.map_cons, List.map_nil, columnsOf_single, List.map_map,
    Function.comp_def, hdot, List.zipWith_cons_cons, List.zipWith_nil_right, Vec.zipWith, hrow]

/-- **A row with a positive pivot is its own triangular factor.** -/
theorem triangular_single {a : ℝ} (ha : 0 < a) (bs : List ℝ) :
    (ofRows (bs.length + 1) [⟨a :: bs⟩]).triangular = ofRows (bs.length + 1) [⟨a :: bs⟩] := by
  have hclear : clearColumn bs.length [⟨a :: bs⟩] = ⟨a, bs, []⟩ := by
    have hc : firstColumn [(⟨a :: bs⟩ : Vec ℝ)] = ⟨[a]⟩ := rfl
    have hn : ¬ (a + a) ^ 2 = 0 := by positivity
    rw [clearColumn_eq, hc, signedNorm_single ha, normalSq_single ha,
      unitNormal_single ha, if_neg hn, Scalar.signum_real, if_pos (by linarith), abs_of_pos ha]
    change splitTop a (reflect ⟨[1]⟩ (-1) bs.length [⟨bs⟩]) = _
    rw [reflect_single]
    rfl
  have hrows : (ofRows (bs.length + 1) [⟨a :: bs⟩]).rows = [⟨a :: bs⟩] :=
    rows_ofRows fun r hr => by rw [List.mem_singleton.mp hr]; rfl
  rw [triangular, height, hrows]
  have hmin : min [(⟨a :: bs⟩ : Vec ℝ)].length (ofRows (bs.length + 1) [⟨a :: bs⟩]).cols = 1 := by
    simp [ofRows]
  rw [hmin]
  change ofRows (bs.length + 1) (triangularRows 1 (bs.length + 1) [⟨a :: bs⟩]) = _
  rw [triangularRows, Nat.add_sub_cancel, hclear]
  rfl

end Smoothing.Mat
