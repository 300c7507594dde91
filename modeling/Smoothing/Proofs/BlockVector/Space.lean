import Mathlib
import Smoothing.Proofs.BlockVector.Axpy

/-!
# Block vectors as a space

Points have coordinates at all keys and indices, of which the blocks of given lengths reach finitely
many (`places`). With coordinates only there, points are a Euclidean space (`Space`): `toSpace`
restricts a point, `Space.point` extends one by zeros, and the inner product is the pairing over all
keys (`inner_toSpace`).

The operations of block vectors are those of the space: `toSpace_axpy`, `dot_eq_inner` and
`normSq_eq_inner`.
-/

open Finset
open scoped RealInnerProductSpace

namespace Smoothing

/-- The places in blocks of the given lengths. -/
def places (dims : KeyMap ℕ) : Finset (Σ _ : Key, ℕ) :=
  dims.keys.toFinset.sigma fun k => range ((dims.get? k).getD 0)

theorem mem_places {dims : KeyMap ℕ} {k : Key} {i : ℕ} :
    (⟨k, i⟩ : Σ _ : Key, ℕ) ∈ places dims ↔ ∃ w, dims.get? k = some w ∧ i < w := by
  rw [places, mem_sigma, List.mem_toFinset, mem_range]
  constructor
  · rintro ⟨hk, hi⟩
    obtain ⟨w, hw⟩ := KeyMap.mem_keys_iff_exists.mp hk
    rw [hw] at hi
    exact ⟨w, hw, hi⟩
  · rintro ⟨w, hw, hi⟩
    refine ⟨KeyMap.mem_keys_iff_exists.mpr ⟨w, hw⟩, ?_⟩
    rw [hw]
    exact hi

/-- The points with coordinates in blocks of the given lengths only. -/
abbrev Space (dims : KeyMap ℕ) : Type := EuclideanSpace ℝ (places dims)

variable {dims : KeyMap ℕ}

/-- The point of a Euclidean space with the given coordinates. -/
noncomputable def withCoords {ι : Type} (f : ι → ℝ) : EuclideanSpace ℝ ι := WithLp.toLp 2 f

/-- The coordinates of a point in blocks of the given lengths. -/
noncomputable def toSpace (dims : KeyMap ℕ) (p : Key → ℕ → ℝ) : Space dims :=
  withCoords fun a => p a.1.1 a.1.2

/-- The point with coordinates in the blocks, and zero elsewhere. -/
noncomputable def Space.point (u : Space dims) (k : Key) (i : ℕ) : ℝ :=
  if h : (⟨k, i⟩ : Σ _ : Key, ℕ) ∈ places dims then u ⟨⟨k, i⟩, h⟩ else 0

theorem toSpace_add (p q : Key → ℕ → ℝ) : toSpace dims (p + q) = toSpace dims p + toSpace dims q :=
  rfl

theorem toSpace_smul (c : ℝ) (p : Key → ℕ → ℝ) : toSpace dims (c • p) = c • toSpace dims p := rfl

theorem toSpace_congr {p q : Key → ℕ → ℝ}
    (h : ∀ k w, dims.get? k = some w → ∀ i < w, p k i = q k i) :
    toSpace dims p = toSpace dims q := by
  ext ⟨⟨k, i⟩, ha⟩
  obtain ⟨w, hw, hi⟩ := mem_places.mp ha
  exact h k w hw i hi

namespace Space

@[simp] theorem toSpace_point (u : Space dims) : toSpace dims u.point = u := by
  ext a
  exact dif_pos a.2

theorem point_toSpace (p : Key → ℕ → ℝ) {k : Key} {w : ℕ} (hk : dims.get? k = some w) {i : ℕ}
    (hi : i < w) : (toSpace dims p).point k i = p k i := dif_pos (mem_places.mpr ⟨w, hk, hi⟩)

theorem point_add (u v : Space dims) : (u + v).point = u.point + v.point := by
  funext k i
  simp only [point, Pi.add_apply]
  split_ifs
  · rfl
  · exact (add_zero 0).symm

theorem point_smul (c : ℝ) (u : Space dims) : (c • u).point = c • u.point := by
  funext k i
  simp only [point, Pi.smul_apply]
  split_ifs
  · rfl
  · exact (smul_zero c).symm

end Space

theorem inner_toSpace (p q : Key → ℕ → ℝ) :
    ⟪toSpace dims p, toSpace dims q⟫ = pairing dims dims.keys.toFinset p q := by
  rw [PiLp.inner_apply, pairing, sum_sigma']
  change ∑ a : places dims, q a.1.1 a.1.2 * p a.1.1 a.1.2 = _
  simp only [mul_comm (q _ _)]
  exact sum_coe_sort (places dims) fun a => p a.1 a.2 * q a.1 a.2

theorem finrank_space (dims : KeyMap ℕ) : Module.finrank ℝ (Space dims) = dims.total id := by
  have hsum : ∀ es : List (Key × ℕ), es.foldr (fun e n => id e.2 + n) 0 = (es.map (·.2)).sum := by
    intro es
    induction es with
    | nil => rfl
    | cons e es ih => rw [List.foldr_cons, ih, List.map_cons, List.sum_cons, id]
  rw [finrank_euclideanSpace, Fintype.card_coe, places, card_sigma, KeyMap.total, hsum,
    List.sum_toFinset _ dims.nodup_keys, KeyMap.keys, List.map_map]
  congr 1
  refine List.map_congr_left fun e he => ?_
  simp [KeyMap.get?_eq_some_iff.mpr he]

/-! ### Operations -/

namespace BlockVector

theorem addBlock_spec {y : BlockVector ℝ} (hy : Within dims y) {k : Key} {v : Vec ℝ}
    (hk : dims.get? k = some v.size) (c : ℝ) :
    ∃ v', addBlock c y k v = y.insert k v' ∧ v'.size = v.size ∧
      ∀ i, v'.get i = c * v.get i + y.coord k i := by
  rcases hyk : y.get? k with _ | w
  · refine ⟨v.scale c, by rw [addBlock, hyk], Vec.size_scale v c, fun i => ?_⟩
    rw [Vec.get_scale, coord_of_get?_eq_none hyk, add_zero, mul_comm]
  · have hw : w.size = v.size := by
      have h := hy k w hyk
      rw [hk] at h
      exact (Option.some.inj h).symm
    refine ⟨Vec.axpy c v w, by rw [addBlock, hyk], by rw [Vec.size_axpy, hw, min_self], fun i => ?_⟩
    rw [Vec.get_axpy _ hw.symm, coord_of_get? hyk]

/-- **Adding blocks one after the other** adds their inner products. -/
theorem foldl_addBlock (c : ℝ) (es : List (Key × Vec ℝ)) {y : BlockVector ℝ} (hy : Within dims y)
    (he : ∀ e ∈ es, dims.get? e.1 = some e.2.size) :
    Within dims (es.foldl (fun acc e => addBlock c acc e.1 e.2) y) ∧
      (∀ k, k ∈ (es.foldl (fun acc e => addBlock c acc e.1 e.2) y).keys ↔
        k ∈ y.keys ∨ k ∈ es.map (·.1)) ∧
      ∀ p, pairing dims dims.keys.toFinset (es.foldl (fun acc e => addBlock c acc e.1 e.2) y).coord
        p = pairing dims dims.keys.toFinset y.coord p +
          c * (es.map fun e => ∑ i ∈ range e.2.size, e.2.get i * p e.1 i).sum := by
  induction es generalizing y with
  | nil => exact ⟨hy, fun k => by simp, fun p => by simp⟩
  | cons e es ih =>
    have hk := he e List.mem_cons_self
    obtain ⟨v, hv, hs, hg⟩ := addBlock_spec hy hk c
    obtain ⟨hw, hkeys, hp⟩ := ih (y := y.insert e.1 v) (hy.insert (by rw [hs, hk])) fun e' he' =>
      he e' (List.mem_cons_of_mem _ he')
    rw [List.foldl_cons, hv]
    refine ⟨hw, fun k => ?_, fun p => ?_⟩
    · rw [hkeys, KeyMap.mem_keys_insert, List.map_cons, List.mem_cons]
      tauto
    · have hmem : e.1 ∈ dims.keys.toFinset :=
        List.mem_toFinset.mpr (KeyMap.mem_keys_iff_exists.mpr ⟨_, hk⟩)
      have hstep : pairing dims dims.keys.toFinset (BlockVector.coord (y.insert e.1 v)) p =
          pairing dims dims.keys.toFinset y.coord p +
            c * ∑ i ∈ range e.2.size, e.2.get i * p e.1 i := by
        rw [pairing_update hmem hk (p := y.coord) fun j _ hj i => by rw [coord_insert, if_neg hj]]
        simp only [coord_insert, if_true, hg, add_sub_cancel_right, mul_sum, mul_assoc]
      rw [hp, hstep, List.map_cons, List.sum_cons]
      ring

theorem widths_eq_of_within {x : BlockVector ℝ} (hx : Within dims x)
    (hk : ∀ k ∈ dims.keys, k ∈ x.keys) : x.widths = dims := by
  refine KeyMap.ext fun k => ?_
  rcases hxk : x.get? k with _ | v
  · have hkd : k ∉ dims.keys := fun h => KeyMap.get?_eq_none_iff.mp hxk (hk k h)
    rw [get?_widths, hxk, KeyMap.get?_eq_none_iff.mpr hkd, Option.map_none]
  · rw [get?_widths_of_get? hxk, hx k v hxk]

section Operations
variable {x y : BlockVector ℝ} (hx : x.widths = dims) (hy : y.widths = dims)
include hx

theorem widths_zerosLike : x.zerosLike.widths = dims := by
  rw [← hx]
  refine KeyMap.ext fun k => ?_
  rw [get?_widths, get?_widths, zerosLike, KeyMap.get?_map, Option.map_map]
  cases x.get? k with
  | none => rfl
  | some v => exact congrArg some (Vec.size_zero _)

omit hx in
theorem coord_zerosLike (x : BlockVector ℝ) (k : Key) (i : ℕ) : x.zerosLike.coord k i = 0 := by
  rw [coord, zerosLike, KeyMap.get?_map]
  cases x.get? k with
  | none => exact Vec.get_nil i
  | some v => exact Vec.get_zero _ i

omit hy in
theorem dot_eq_inner (y : BlockVector ℝ) :
    x.dot y = ⟪toSpace dims x.coord, toSpace dims y.coord⟫ := by
  rw [inner_toSpace, dot_eq_pairing (within_of_widths hx)]

theorem normSq_eq_inner : x.normSq = ⟪toSpace dims x.coord, toSpace dims x.coord⟫ := by
  rw [normSq_eq_dot, dot_eq_inner hx]

theorem norm_eq_norm : x.norm = ‖toSpace dims x.coord‖ := by
  rw [norm, normSq_eq_inner hx, Scalar.sqrt_real, norm_eq_sqrt_real_inner]

include hy

theorem eq_of_toSpace_eq (h : toSpace dims x.coord = toSpace dims y.coord) : x = y := by
  refine ext_coord (hx.trans hy.symm) fun k w hw i hi => ?_
  rw [hx] at hw
  rw [← Space.point_toSpace x.coord hw hi, h, Space.point_toSpace _ hw hi]

theorem widths_axpy (c : ℝ) : (axpy c x y).widths = dims := by
  obtain ⟨hw, hk, -⟩ := foldl_addBlock c x.entries (within_of_widths hy) fun e he => by
    rw [← hx, get?_widths_of_get? (KeyMap.get?_eq_some_iff.mpr he)]
  refine widths_eq_of_within hw fun k hkd => ?_
  refine (hk k).mpr (.inl ?_)
  rwa [← keys_widths, hy]

theorem toSpace_axpy (c : ℝ) :
    toSpace dims (axpy c x y).coord = c • toSpace dims x.coord + toSpace dims y.coord := by
  have hfits : x.fits y = true := fits_iff.mpr fun k u v hu hv =>
    Option.some.inj ((within_of_widths hx k u hu).symm.trans (within_of_widths hy k v hv))
  ext a
  change (axpy c x y).coord _ _ = c * x.coord _ _ + y.coord _ _
  rw [coord_axpy hfits, add_comm]

end Operations

end BlockVector

end Smoothing
