import Mathlib
import Smoothing.Proofs.Mat

/-!
# The largest entry

The largest element of a list of real numbers is below a bound if and only if all elements are
(`Vec.largest_le_iff`). So the largest absolute value of an entry of a matrix is below a bound if
and only if those of all entries are (`Mat.amax_le_iff`), and it is multiplied by `c` with the
matrix (`Mat.amax_scale`).
-/

namespace Smoothing

/-! ### Lists -/

namespace Vec

variable {l : List ℝ} {t : ℝ}

theorem largest_le_iff (hl : l ≠ []) : largest l ≤ t ↔ ∀ a ∈ l, a ≤ t := by
  obtain ⟨a, l, rfl⟩ := List.exists_cons_of_ne_nil hl
  rw [largest]
  clear hl
  induction l generalizing a with
  | nil => simp
  | cons b l ih =>
    rw [List.foldl_cons, ih]
    simp only [List.forall_mem_cons]
    split_ifs with hba
    · exact ⟨fun ⟨ha, hall⟩ => ⟨ha, hba.trans ha, hall⟩, fun ⟨ha, _, hall⟩ => ⟨ha, hall⟩⟩
    · exact ⟨fun ⟨hb, hall⟩ => ⟨(not_le.mp hba).le.trans hb, hb, hall⟩,
        fun ⟨_, hb, hall⟩ => ⟨hb, hall⟩⟩

theorem le_largest {a : ℝ} (h : a ∈ l) : a ≤ largest l :=
  (largest_le_iff (List.ne_nil_of_mem h)).mp le_rfl a h

theorem largest_nonneg (h : ∀ a ∈ l, 0 ≤ a) : 0 ≤ largest l := by
  cases l with
  | nil => exact le_rfl
  | cons a l => exact (h a List.mem_cons_self).trans (le_largest List.mem_cons_self)

end Vec

/-! ### Matrices -/

namespace Mat

theorem forall_mem_entries {m : Mat ℝ} {p : ℝ → Prop} :
    (∀ a ∈ m.entries, p a) ↔ ∀ i < m.height, ∀ j < m.cols, p (m.get i j) := by
  have hget : ∀ {j} (hj : j < m.columnList.length) {i} (hi : i < m.columnList[j].coords.length),
      m.get i j = m.columnList[j].coords[i] := fun {j} hj {i} hi => by
    rw [← get_columnList (by simpa using hj), List.getD_eq_getElem _ _ hj, Vec.get_eq_getElem hi]
  have hsize : ∀ {j} (hj : j < m.columnList.length), m.columnList[j].coords.length =
      m.height := fun hj =>
    size_of_mem_columnList (List.getElem_mem hj)
  simp only [entries, List.mem_flatMap]
  constructor
  · intro h i hi j hj
    have hj' : j < m.columnList.length := by simpa using hj
    have hi' : i < m.columnList[j].coords.length := (hsize hj').symm ▸ hi
    rw [hget hj' hi']
    exact h _ ⟨_, List.getElem_mem hj', List.getElem_mem hi'⟩
  · rintro h a ⟨c, hc, ha⟩
    obtain ⟨j, hj, rfl⟩ := List.getElem_of_mem hc
    obtain ⟨i, hi, rfl⟩ := List.getElem_of_mem ha
    rw [← hget hj hi]
    exact h i (hsize hj ▸ hi) j (by simpa using hj)

theorem amax_nonneg (m : Mat ℝ) : 0 ≤ m.amax :=
  Vec.largest_nonneg (List.forall_mem_map.mpr fun a _ => abs_nonneg a)

theorem amax_le_iff {m : Mat ℝ} {t : ℝ} (ht : 0 ≤ t) : m.amax ≤ t ↔ ∀ i j, |m.get i j| ≤ t := by
  have hentries : m.amax ≤ t ↔ ∀ a ∈ m.entries, |a| ≤ t := by
    by_cases hnil : m.entries = []
    · simp [amax, hnil, Vec.largest, ht]
    · rw [amax, Vec.largest_le_iff (by simpa using hnil), List.forall_mem_map]
      rfl
  rw [hentries, forall_mem_entries (p := fun a => |a| ≤ t)]
  refine ⟨fun h i j => ?_, fun h i _ j _ => h i j⟩
  by_cases hi : i < m.height
  · by_cases hj : j < m.cols
    · exact h i hi j hj
    · rwa [get_of_cols_le (not_lt.mp hj), abs_zero]
  · rwa [get_of_height_le (not_lt.mp hi), abs_zero]

theorem abs_get_le_amax (m : Mat ℝ) (i j : ℕ) : |m.get i j| ≤ m.amax :=
  (amax_le_iff m.amax_nonneg).mp le_rfl i j

theorem amax_scale (m : Mat ℝ) {c : ℝ} (hc : 0 < c) : (m.scale c).amax = m.amax * c := by
  have hle : ∀ t, 0 ≤ t → ((m.scale c).amax ≤ t ↔ m.amax ≤ t / c) := fun t ht => by
    rw [amax_le_iff ht, amax_le_iff (div_nonneg ht hc.le)]
    refine forall_congr' fun i => forall_congr' fun j => ?_
    rw [get_scale, abs_mul, abs_of_pos hc, le_div_iff₀ hc]
  apply le_antisymm
  · exact (hle _ (mul_nonneg m.amax_nonneg hc.le)).mpr (mul_div_cancel_right₀ _ hc.ne').ge
  · exact (le_div_iff₀ hc).mp ((hle _ (amax_nonneg _)).mp le_rfl)

end Mat

end Smoothing
