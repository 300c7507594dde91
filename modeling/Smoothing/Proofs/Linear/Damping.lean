import Mathlib
import Smoothing.Proofs.Linear.Factor

/-!
# Widths and damping

A graph has widths if its blocks agree on them (`GaussianGraph.exists_dims`). Damping by a number
that is not negative keeps the factors and adds factors on one variable each
(`GaussianGraph.exists_damped`), so the variables and their widths stay the same
(`GaussianGraph.dims_damped`).
-/

namespace Smoothing

namespace GaussianGraph

theorem exists_noteWidths {α : Type} {dims : KeyMap ℕ} {ts : List (Key × Mat α)}
    (hts : ∀ t ∈ ts, dims.get? t.1 = some t.2.cols) {noted : KeyMap ℕ}
    (hnoted : ∀ k w, noted.get? k = some w → dims.get? k = some w) :
    ∃ dims', (noteWidths noted ts).outcome = .ok dims' := by
  induction ts generalizing noted with
  | nil => exact ⟨noted, rfl⟩
  | cons t ts ih =>
    obtain ⟨k, m⟩ := t
    obtain ⟨hk, hts⟩ := List.forall_mem_cons.mp hts
    rw [noteWidths]
    cases hw : noted.get? k with
    | none =>
      refine ih hts fun j w hj => ?_
      rw [KeyMap.get?_insert] at hj
      split_ifs at hj with hjk
      · cases hj
        rw [hjk]
        exact hk
      · exact hnoted j w hj
    | some w =>
      have hwm : w = m.cols := Option.some.inj ((hnoted k w hw).symm.trans hk)
      simp only [hwm, if_true]
      exact ih hts hnoted

/-- **The widths of a graph are found** if its factors have widths. -/
theorem exists_dims {α : Type} {g : GaussianGraph α} {dims : KeyMap ℕ}
    (hc : Consistent dims g.factors) : ∃ dims', g.dims.outcome = .ok dims' :=
  exists_noteWidths (fun t ht => by
    obtain ⟨f, hf, ht⟩ := List.mem_flatMap.mp ht
    exact hc f hf t ht) fun k w h => by cases h

/-- The damping terms of variables of the given widths. -/
noncomputable def dampingTerms (dims : KeyMap ℕ) (lambda : ℝ) : List (GaussianFactor ℝ) :=
  dims.entries.map fun e => GaussianFactor.damping e.1 e.2 lambda

theorem exists_of_mem_dampingTerms {dims : KeyMap ℕ} {lambda : ℝ} :
    ∀ f ∈ dampingTerms dims lambda, ∃ k w, dims.get? k = some w ∧
    f = GaussianFactor.damping k w lambda := by
  intro f hf
  obtain ⟨e, he, rfl⟩ := List.mem_map.mp hf
  exact ⟨e.1, e.2, KeyMap.get?_eq_some_iff.mpr he, rfl⟩

/-- **Damping by a positive number** adds the damping terms after the factors. -/
theorem outcome_damped {g : GaussianGraph ℝ} {dims : KeyMap ℕ} (hdims : g.dims.outcome = .ok dims)
    {lambda : ℝ} (hlambda : 0 < lambda) :
    (g.damped lambda).outcome = .ok ⟨g.factors ++ dampingTerms dims lambda⟩ := by
  have husable : ¬ (!Scalar.isFinite lambda || decide (lambda < 0)) = true := by
    simpa using hlambda.le
  rw [damped, if_neg (by simpa using hlambda.ne'), if_neg husable, Logged.outcome_bind_ok _ hdims]
  rfl

theorem outcome_damped_zero (g : GaussianGraph ℝ) : (g.damped 0).outcome = .ok g := by
  rw [damped, if_pos (beq_iff_eq.mpr rfl)]
  rfl

/-- **A graph is damped by a number that is not negative.** Factors on one variable each come after
its own. -/
theorem exists_damped {g : GaussianGraph ℝ} {dims : KeyMap ℕ} (hdims : g.dims.outcome = .ok dims)
    {lambda : ℝ} (hlambda : 0 ≤ lambda) :
    ∃ fs, (g.damped lambda).outcome = .ok ⟨g.factors ++ fs⟩ ∧
      ∀ f ∈ fs, ∃ k w, dims.get? k = some w ∧ f = GaussianFactor.damping k w lambda := by
  rcases hlambda.eq_or_lt with rfl | hpos
  · refine ⟨[], ?_, by simp⟩
    rw [List.append_nil]
    exact g.outcome_damped_zero
  · exact ⟨_, outcome_damped hdims hpos, exists_of_mem_dampingTerms⟩

section Damped
variable {g : GaussianGraph ℝ} {dims : KeyMap ℕ} (hdims : g.dims.outcome = .ok dims)
  {fs : List (GaussianFactor ℝ)} {lambda : ℝ} (hfs : ∀ f ∈ fs, ∃ k w, dims.get? k = some w ∧
    f = GaussianFactor.damping k w lambda)
include hdims hfs

theorem mem_keys_damped {k : Key} :
    k ∈ (⟨g.factors ++ fs⟩ : GaussianGraph ℝ).keys.keys ↔ k ∈ g.keys.keys := by
  rw [mem_keys_keys, mem_keys_keys]
  constructor
  · rintro ⟨f, hf, hk⟩
    rcases List.mem_append.mp hf with hf | hf
    · exact ⟨f, hf, hk⟩
    · obtain ⟨j, w, hj, rfl⟩ := hfs f hf
      obtain rfl : k = j := List.mem_singleton.mp hk
      exact mem_keys_keys.mp ((dims_of_ok hdims).2 ▸ KeyMap.mem_keys_iff_exists.mpr ⟨w, hj⟩)
  · rintro ⟨f, hf, hk⟩
    exact ⟨f, List.mem_append_left _ hf, hk⟩

/-- **Damping keeps the widths.** -/
theorem dims_damped : (⟨g.factors ++ fs⟩ : GaussianGraph ℝ).dims.outcome = .ok dims := by
  obtain ⟨hc, hkeys⟩ := dims_of_ok hdims
  have hc' : Consistent dims (g.factors ++ fs) := fun f hf t ht => by
    rcases List.mem_append.mp hf with hf | hf
    · exact hc f hf t ht
    · obtain ⟨k, w, hk, rfl⟩ := hfs f hf
      obtain rfl := List.mem_singleton.mp ht
      exact hk
  obtain ⟨dims', hdims'⟩ := exists_dims (g := ⟨g.factors ++ fs⟩) hc'
  obtain ⟨hc'', hkeys'⟩ := dims_of_ok hdims'
  have hmem : ∀ k, k ∈ dims.keys ↔ k ∈ dims'.keys := fun k => by
    rw [hkeys, hkeys', mem_keys_damped hdims hfs]
  rw [hdims', hc'.dims_eq hc'' hmem fun k hk => ?_]
  obtain ⟨f, hf, hkf⟩ := mem_keys_keys.mp (hkeys ▸ hk)
  exact ⟨f, List.mem_append_left _ hf, hkf⟩

end Damped

end GaussianGraph

end Smoothing
