import Mathlib
import Smoothing.Proofs.Config.RoundTrip
import Smoothing.Proofs.Factor
import Smoothing.Proofs.Linear.RightHandSide

/-!
# Factors with affine residuals

A factor on vectors is affine if an update changes its residual by the Jacobian, and the Jacobian is
the same at all vectors (`Factor.IsAffine`). Whitening and the cut of the Jacobian into blocks are
linear (`rowValue_splitColumns_mul`), so the residual of the linearization at an update is the
whitened residual after it (`Factor.residual_eq_whiten`). The linearization of such a factor is
exact (`Factor.IsAffine.error_updated`), and linearizations at two configurations have the same
blocks (`Factor.IsAffine.sameBlocks`).
-/

open Finset

namespace Smoothing

/-! ### Vectors in a configuration -/

namespace Config

/-- The values of the variables are vectors of one dimension. -/
def HasVectors (c : Config ℝ) (ks : List Key) (d : ℕ) : Prop :=
  ∀ k ∈ ks, ∃ x, c.get? k = some (.rn x) ∧ x.size = d

/-- The vector of a variable, empty if its value is none. -/
def vectorAt (c : Config ℝ) (k : Key) : Vec ℝ :=
  match c.get? k with
  | some (.rn x) => x
  | _ => ⟨[]⟩

variable {c c' : Config ℝ} {δ : BlockVector ℝ} {ks : List Key} {k : Key} {d : ℕ}

theorem vectorAt_of_get? {x : Vec ℝ} (h : c.get? k = some (.rn x)) :
    c.vectorAt k = x :=
  by rw [vectorAt, h]

theorem shape_updated (h : c.Fits δ) : (c.updated δ).shape = c.shape :=
  shape_retract (retract_of_fits h)

namespace HasVectors

variable (h : c.HasVectors ks d)
include h

theorem size_vectorAt (hk : k ∈ ks) : (c.vectorAt k).size = d := by
  obtain ⟨x, hx, hs⟩ := h k hk
  rw [vectorAt_of_get? hx, hs]

theorem of_shape (hc : c'.shape = c.shape) : c'.HasVectors ks d := by
  intro k hk
  obtain ⟨x, hx, hs⟩ := h k hk
  have hshape : (c'.get? k).map Value.shape = some (.rn, d) := by
    rw [← get?_shape, hc, get?_shape, hx, Option.map_some, ← hs]
    rfl
  obtain ⟨y, hy, hshape⟩ := Option.map_eq_some_iff.mp hshape
  cases y with
  | rn y => exact ⟨y, hy, congrArg Prod.snd hshape⟩
  | so2 y => cases hshape
  | se2 y => cases hshape
  | so3 y => cases hshape
  | se3 y => cases hshape

variable (hδ : c.Fits δ) (hk : k ∈ ks)
include hδ hk

theorem get_vectorAt_updated (i : ℕ) :
    ((c.updated δ).vectorAt k).get i = (c.vectorAt k).get i + δ.coord k i := by
  obtain ⟨x, hx, -⟩ := h k hk
  have hupdated : (c.updated δ).get? k = some ((δ.get? k).elim (.rn x) (Value.rn x).plus) := by
    rw [get?_updated, hx, Option.map_some]
  rw [vectorAt_of_get? hx]
  cases hv : δ.get? k with
  | none =>
    rw [hv] at hupdated
    rw [vectorAt_of_get? hupdated, BlockVector.coord_of_get?_eq_none hv, add_zero]
  | some v =>
    obtain ⟨x', hx', hs⟩ := hδ k v hv
    obtain rfl : x' = .rn x := Option.some.inj (hx'.symm.trans hx)
    rw [hv] at hupdated
    rw [vectorAt_of_get? (x := x + v) hupdated, BlockVector.coord_of_get? hv, Vec.get_add hs.symm]

theorem coord_eq_zero {i : ℕ} (hi : d ≤ i) : δ.coord k i = 0 := by
  cases hv : δ.get? k with
  | none => exact BlockVector.coord_of_get?_eq_none hv i
  | some v =>
    obtain ⟨x, hx, hs⟩ := h k hk
    obtain ⟨x', hx', hs'⟩ := hδ k v hv
    obtain rfl : x' = .rn x := Option.some.inj (hx'.symm.trans hx)
    rw [BlockVector.coord_of_get? hv, Vec.get_of_size_le]
    exact (hs'.trans hs).le.trans hi

end HasVectors

end Config

/-! ### Blocks of a Jacobian -/

theorem rowValue_splitColumns_mul (r m : Mat ℝ) (ks : List Key) (start : ℕ) (ws : List ℕ)
    (p : Key → ℕ → ℝ) (i : ℕ) : rowValue (List.zip ks (Factor.splitColumns (r * m) start ws)) p i =
      ∑ k ∈ range r.cols,
        r.get i k * rowValue (List.zip ks (Factor.splitColumns m start ws)) p k := by
  induction ws generalizing ks start with
  | nil => simp [Factor.splitColumns]
  | cons w ws ih =>
    cases ks with
    | nil => simp
    | cons key ks =>
      simp only [Factor.splitColumns, List.zip_cons_cons, rowValue_cons, ih, mul_add,
        sum_add_distrib, mul_sum, Mat.get_columns, Mat.get_mul]
      rw [sum_comm]
      congr 1
      refine sum_congr rfl fun j _ => ?_
      split_ifs
      · rw [sum_mul]
        exact sum_congr rfl fun k _ => mul_assoc _ _ _
      · simp

namespace Factor

theorem height_of_mem_splitColumns {α : Type} {m b : Mat α} {start : ℕ} {ws : List ℕ}
    (h : b ∈ splitColumns m start ws) : b.height = m.height := by
  induction ws generalizing start with
  | nil => cases h
  | cons w ws ih =>
    rcases List.mem_cons.mp h with rfl | h
    · exact Mat.height_columns m start w
    · exact ih h

/-- **A linear factor has the whitened residual after an update** if the residual changes by its
Jacobian. -/
theorem residual_eq_whiten {noise : NoiseModel ℝ} {ks : List Key} {jacobian : Mat ℝ} {ws : List ℕ}
    {e e' : Vec ℝ} {l : GaussianFactor ℝ} {δ : BlockVector ℝ}
    (hterms : l.terms = List.zip ks (splitColumns (noise.whitenJacobian jacobian) 0 ws))
    (hrhs : l.rhs = -noise.whiten e)
    (he : ∀ i, e'.get i = e.get i + rowValue (List.zip ks (splitColumns jacobian 0 ws)) δ.coord i) :
    l.residual δ = noise.whiten e' := by
  refine Vec.ext_get ?_ fun i _ => ?_
  · rw [l.size_residual, GaussianFactor.height, hrhs, Vec.size_neg]
    exact (Mat.size_mulVec _ _).trans (Mat.size_mulVec _ _).symm
  · have hvalue : l.value δ.coord i = ∑ k ∈ range noise.sqrtInfo.cols,
        noise.sqrtInfo.get i k * rowValue (List.zip ks (splitColumns jacobian 0 ws)) δ.coord k := by
      rw [GaussianFactor.value, hterms]
      exact rowValue_splitColumns_mul _ _ _ _ _ _ _
    have hwhiten : ∀ v : Vec ℝ, (noise.whiten v).get i =
        ∑ k ∈ range noise.sqrtInfo.cols, noise.sqrtInfo.get i k * v.get k :=
      fun v => Mat.get_mulVec _ _ _
    rw [l.get_residual, hvalue, hrhs, Vec.get_neg, hwhiten, hwhiten, sub_neg_eq_add,
      ← sum_add_distrib]
    refine sum_congr rfl fun k _ => ?_
    rw [he k]
    ring

theorem fits_of_linearize {f : Factor ℝ} {c : Config ℝ} {l : GaussianFactor ℝ} {δ : BlockVector ℝ}
    (h : f.linearize c = .ok l) (hδ : c.Fits δ) : l.fits δ = true := by
  refine GaussianFactor.fits_iff.mpr fun t ht v hv => ?_
  obtain ⟨x, hx, hcols⟩ := (exists_of_linearize h).2 t ht
  obtain ⟨x', hx', hsize⟩ := hδ t.1 v hv
  rw [hsize, hcols, Option.some.inj (hx'.symm.trans hx)]

/-! ### Values -/

theorem error_congr {α : Type} [Scalar α] {f : Factor α} {c d : Config α}
    (h : ∀ k ∈ f.keys, c.get? k = d.get? k) : f.error c = f.error d := by
  have hlookUp : ∀ ks : List Key, (∀ k ∈ ks, c.get? k = d.get? k) →
      (lookUp c ks : Evaluated α (List (Value α))) = lookUp d ks := by
    intro ks
    induction ks with
    | nil => exact fun _ => rfl
    | cons k ks ih =>
      intro hks
      obtain ⟨hk, hks⟩ := List.forall_mem_cons.mp hks
      rw [lookUp, lookUp, hk, ih hks]
  have hwhitened : f.whitened c = f.whitened d := by
    rw [whitened, whitened, unwhitened, unwhitened, values, values, hlookUp f.keys h]
  cases f with
  | equality f => simp only [error, h f.key List.mem_cons_self]
  | prior f => simp only [error, hwhitened]
  | between f => simp only [error, hwhitened]
  | function f => simp only [error, hwhitened]
  | custom f => simp only [error, hwhitened]

section Vectors
variable {f : Factor ℝ} {c : Config ℝ} {d : ℕ} (hc : c.HasVectors f.keys d)
include hc

theorem exists_values_of_hasVectors : ∃ xs, f.values c = .ok xs := by
  have hvalues : ∀ k ∈ f.keys, ∃ x, c.get? k = some x := fun k hk => by
    obtain ⟨x, hx, -⟩ := hc k hk
    exact ⟨_, hx⟩
  obtain ⟨xs, hxs, -⟩ := exists_values hvalues
  exact ⟨xs, hxs⟩

theorem map_dim_of_hasVectors {xs : List (Value ℝ)} (hxs : f.values c = .ok xs) :
    xs.map Value.dim = f.keys.map fun _ => d := by
  have hall : ∀ {ks : List Key} {xs : List (Value ℝ)},
      List.Forall₂ (fun k x => c.get? k = some x) ks xs →
      c.HasVectors ks d → xs.map Value.dim = ks.map fun _ => d := by
    intro ks xs h
    induction h with
    | nil => exact fun _ => rfl
    | cons hx _ ih =>
      intro hks
      obtain ⟨⟨x, hx', hs⟩, hks⟩ := List.forall_mem_cons.mp hks
      rw [List.map_cons, List.map_cons, ih hks, Option.some.inj (hx.symm.trans hx')]
      exact congrArg (· :: _) hs
  exact hall (lookUp_eq_ok_iff.mp hxs) hc

end Vectors

/-! ### Affine factors -/

/-- A factor on vectors of one dimension, with a residual that an update changes by the Jacobian.
The Jacobian is the same at all vectors. -/
structure IsAffine (f : Factor ℝ) (d : ℕ) (jacobian : Mat ℝ) (residual : Config ℝ → Vec ℝ) :
    Prop where
  nodup : f.keys.Nodup
  ne_equality : ∀ g, f ≠ .equality g
  dimension_eq : f.dimension = d
  height_eq : jacobian.height = d
  cols_eq : jacobian.cols = f.keys.length * d
  evaluate_eq : ∀ {c xs}, f.values c = .ok xs → c.HasVectors f.keys d → ∀ wantJacobian,
    f.evaluate xs wantJacobian = .ok ⟨residual c, if wantJacobian then some jacobian else none⟩
  hasVectors : ∀ {c xs wantJacobian r}, f.values c = .ok xs → f.evaluate xs wantJacobian = .ok r →
    c.HasVectors f.keys d
  size_residual : ∀ {c : Config ℝ}, c.HasVectors f.keys d → (residual c).size = d
  get_updated : ∀ {c : Config ℝ} {δ : BlockVector ℝ}, c.HasVectors f.keys d → c.Fits δ → ∀ i,
    (residual (c.updated δ)).get i = (residual c).get i +
      rowValue (List.zip f.keys (splitColumns jacobian 0 (f.keys.map fun _ => d))) δ.coord i

namespace IsAffine

variable {f : Factor ℝ} {d : ℕ} {jacobian : Mat ℝ} {residual : Config ℝ → Vec ℝ}
  (hf : f.IsAffine d jacobian residual) {c : Config ℝ} {δ : BlockVector ℝ}
include hf

theorem checkResidual_residual (hc : c.HasVectors f.keys d) :
    checkResidual (residual c) f.dimension = .ok () :=
  checkResidual_eq_ok_iff.mpr ⟨(hf.size_residual hc).trans hf.dimension_eq.symm, by
    simp [Vec.allFinite]⟩

/-- **An affine factor has an error at vectors of its dimension**, and only there. -/
theorem error_eq_ok_iff {a : ℝ} :
    f.error c = .ok a ↔ c.HasVectors f.keys d ∧ f.noise.distance (residual c) = a := by
  simp only [error_eq_whitened hf.ne_equality, whitened, unwhitened, Evaluated.bind_eq_ok, pure,
    Except.pure, Except.ok.injEq]
  constructor
  · rintro ⟨_, ⟨_, ⟨xs, hxs, r, hr, _, -, rfl⟩, rfl⟩, rfl⟩
    have hc := hf.hasVectors hxs hr
    rw [hf.evaluate_eq hxs hc] at hr
    cases hr
    exact ⟨hc, rfl⟩
  · rintro ⟨hc, rfl⟩
    obtain ⟨xs, hxs⟩ := exists_values_of_hasVectors hc
    exact ⟨_, ⟨_, ⟨xs, hxs, _, hf.evaluate_eq hxs hc false, (), hf.checkResidual_residual hc, rfl⟩,
      rfl⟩, rfl⟩

/-- **The linearization of an affine factor** has the same blocks at all vectors. -/
theorem exists_linearize (hc : c.HasVectors f.keys d) :
    ∃ l, f.linearize c = .ok l ∧ l.rhs = -f.noise.whiten (residual c) ∧
      l.terms = List.zip f.keys
      (splitColumns (f.noise.whitenJacobian jacobian) 0 (f.keys.map fun _ => d)) := by
  obtain ⟨xs, hxs⟩ := exists_values_of_hasVectors hc
  have hdims := map_dim_of_hasVectors hc hxs
  generalize hblocks :
    splitColumns (f.noise.whitenJacobian jacobian) 0 (f.keys.map fun _ => d) = blocks
  have hlength : f.keys.length = blocks.length := by
    rw [← hblocks, length_splitColumns, List.length_map]
  have hheight : ∀ m ∈ blocks, m.height = (-f.noise.whiten (residual c)).size := by
    intro m hm
    rw [height_of_mem_splitColumns (hblocks ▸ hm), Vec.size_neg]
    exact (Mat.height_mul _ _).trans (Mat.size_mulVec _ _).symm
  have hwidth : (f.keys.map fun _ => d).foldr (· + ·) 0 = f.keys.length * d := by
    rw [← List.sum_eq_foldr, List.map_const', List.sum_replicate, smul_eq_mul]
  have hnodup : ((List.zip f.keys blocks).map (·.1)).Nodup := by
    rw [List.map_fst_zip hlength.le]
    exact hf.nodup
  refine ⟨⟨List.zip f.keys blocks, -f.noise.whiten (residual c),
    fun t ht => hheight t.2 (List.of_mem_zip ht).2, hnodup⟩,
    linearize_eq_ok_iff.mpr ⟨xs, residual c, jacobian, lookUp_eq_ok_iff.mp hxs,
    hf.evaluate_eq hxs hc true, checkResidual_eq_ok_iff.mp (hf.checkResidual_residual hc), ?_, ?_,
      ?_⟩, rfl, rfl⟩
  · exact ⟨hf.height_eq.trans hf.dimension_eq.symm, by rw [hdims, hwidth, hf.cols_eq]⟩
  · simp [Mat.allFinite, Vec.allFinite]
  · rw [hdims, hblocks]
    exact GaussianFactor.ofBlocks?_eq_ok_iff.mpr ⟨hlength, rfl, rfl⟩

section Linearized
variable {l : GaussianFactor ℝ} (hl : f.linearize c = .ok l)
include hl

theorem hasVectors_of_linearize : c.HasVectors f.keys d := by
  obtain ⟨xs, e, m, hxs, hr, -⟩ := linearize_eq_ok_iff.mp hl
  exact hf.hasVectors (lookUp_eq_ok_iff.mpr hxs) hr

theorem of_linearize : l.rhs = -f.noise.whiten (residual c) ∧
    l.terms = List.zip f.keys
    (splitColumns (f.noise.whitenJacobian jacobian) 0 (f.keys.map fun _ => d)) := by
  obtain ⟨l', hl', hspec⟩ := hf.exists_linearize (hf.hasVectors_of_linearize hl)
  exact Except.ok.inj (hl'.symm.trans hl) ▸ hspec

/-- **The linearization of an affine factor is exact.** -/
theorem error_updated (hδ : c.Fits δ) : f.error (c.updated δ) = .ok (l.error δ) := by
  have hc := hf.hasVectors_of_linearize hl
  obtain ⟨hrhs, hterms⟩ := hf.of_linearize hl
  refine hf.error_eq_ok_iff.mpr ⟨hc.of_shape (Config.shape_updated hδ), ?_⟩
  rw [GaussianFactor.error, residual_eq_whiten hterms hrhs (hf.get_updated hc hδ)]
  rfl

theorem sameBlocks {c' : Config ℝ} {l' : GaussianFactor ℝ} (hl' : f.linearize c' = .ok l') :
    l.SameBlocks l' := by
  obtain ⟨hrhs, hterms⟩ := hf.of_linearize hl
  obtain ⟨hrhs', hterms'⟩ := hf.of_linearize hl'
  refine ⟨hterms'.trans hterms.symm, ?_⟩
  rw [hrhs, hrhs', Vec.size_neg, Vec.size_neg]
  exact (Mat.size_mulVec _ _).trans (Mat.size_mulVec _ _).symm

end Linearized

end IsAffine

end Factor

end Smoothing
