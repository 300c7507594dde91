import Mathlib
import Smoothing.Proofs.BlockVector.Space
import Smoothing.Proofs.Linear.BayesNet

/-!
# Problems as linear maps

The values of factors at a point are a linear map from the space of block vectors to that of their
rows (`valueMap`), and the squares of a problem the squared distance of this map from the right-hand
sides (`factorsSq_eq_norm_sq`). The transposed product is its adjoint (`exists_transposeMultiply`).

The values of a block triangular system are a map of the space of block vectors to itself that has
an inverse (`BlockTriangular.rows`). Solving backwards is the inverse (`exists_backsubstitute`), and
solving forwards the adjoint of the inverse (`exists_backsubstituteTransposed`).
-/

open Finset
open scoped RealInnerProductSpace

namespace Smoothing

variable {dims : KeyMap ℕ} {fs : List (GaussianFactor ℝ)}

/-! ### The rows of factors -/

/-- Numbers for all rows of factors. -/
abbrev RowSpace (fs : List (GaussianFactor ℝ)) : Type :=
  EuclideanSpace ℝ (Σ j : Fin fs.length, Fin fs[j].height)

/-- The numbers that every factor gives to its rows. -/
noncomputable def toRows (fs : List (GaussianFactor ℝ)) (φ : GaussianFactor ℝ → ℕ → ℝ) :
    RowSpace fs :=
  withCoords fun a => φ fs[a.1] a.2

theorem inner_toRows (φ ψ : GaussianFactor ℝ → ℕ → ℝ) :
    ⟪toRows fs φ, toRows fs ψ⟫ = (fs.map fun f => ∑ i ∈ range f.height, φ f i * ψ f i).sum := by
  have hrows : ∀ j : Fin fs.length, ∑ i : Fin fs[j].height, ψ fs[j] i * φ fs[j] i =
      ∑ i ∈ range fs[j].height, φ fs[j] i * ψ fs[j] i := by
    intro j
    rw [Fin.sum_univ_eq_sum_range (fun i => ψ fs[j] i * φ fs[j] i)]
    exact sum_congr rfl fun i _ => mul_comm _ _
  rw [PiLp.inner_apply, Fintype.sum_sigma]
  change ∑ j : Fin fs.length, ∑ i : Fin fs[j].height, ψ fs[j] i * φ fs[j] i = _
  rw [Fintype.sum_congr _ _ hrows]
  exact Fin.sum_univ_fun_getElem fs fun f => ∑ i ∈ range f.height, φ f i * ψ f i

theorem inner_toRows_perm {fs gs hs : List (GaussianFactor ℝ)} (hp : fs.Perm (gs ++ hs))
    (φ ψ : GaussianFactor ℝ → ℕ → ℝ) : ⟪toRows fs φ, toRows fs ψ⟫ =
      ⟪toRows gs φ, toRows gs ψ⟫ + ⟪toRows hs φ, toRows hs ψ⟫ := by
  rw [inner_toRows, inner_toRows, inner_toRows, (hp.map _).sum_eq, List.map_append, List.sum_append]

/-- The values of factors, from the space of block vectors. -/
noncomputable def valueMap (dims : KeyMap ℕ) (fs : List (GaussianFactor ℝ)) :
    Space dims →ₗ[ℝ] RowSpace fs where
  toFun u := toRows fs fun f => f.value u.point
  map_add' u v := by
    ext a
    change rowValue _ (u + v).point _ = rowValue _ _ _ + rowValue _ _ _
    rw [Space.point_add, rowValue_add]
  map_smul' c u := by
    ext a
    change rowValue _ (c • u).point _ = c * rowValue _ _ _
    rw [Space.point_smul, rowValue_smul]

theorem Consistent.value_point (hc : Consistent dims fs) {f : GaussianFactor ℝ} (hf : f ∈ fs)
    (p : Key → ℕ → ℝ) (i : ℕ) : f.value (toSpace dims p).point i = f.value p i :=
  rowValue_congr (fun t ht _ hj => Space.point_toSpace p (hc f hf t ht) hj) i

theorem valueMap_toSpace (hc : Consistent dims fs) (p : Key → ℕ → ℝ) :
    valueMap dims fs (toSpace dims p) = toRows fs fun f => f.value p := by
  ext a
  exact hc.value_point (List.getElem_mem _) p a.2

/-- The right-hand sides of factors. -/
noncomputable def rhsRows (fs : List (GaussianFactor ℝ)) : RowSpace fs :=
  toRows fs fun f => f.rhs.get

theorem toRows_multiply (hc : Consistent dims fs) (x : BlockVector ℝ) :
    toRows fs (fun f => (f.multiply x).get) = valueMap dims fs (toSpace dims x.coord) := by
  rw [valueMap_toSpace hc]
  congr 1
  funext f i
  exact f.get_multiply x i

theorem toRows_residual (hc : Consistent dims fs) (x : BlockVector ℝ) :
    toRows fs (fun f => (f.rhs - f.multiply x).get) =
      rhsRows fs - valueMap dims fs (toSpace dims x.coord) := by
  rw [← toRows_multiply hc]
  ext a
  exact Vec.get_sub (GaussianFactor.size_multiply _ x).symm a.2

/-- **The squares are a squared distance.** -/
theorem factorsSq_eq_norm_sq (hc : Consistent dims fs) (p : Key → ℕ → ℝ) :
    factorsSq fs p = ‖valueMap dims fs (toSpace dims p) - rhsRows fs‖ ^ 2 := by
  rw [valueMap_toSpace hc, ← real_inner_self_eq_norm_sq]
  change _ = ⟪toRows fs fun f i => f.value p i - f.rhs.get i,
    toRows fs fun f i => f.value p i - f.rhs.get i⟫
  rw [inner_toRows, factorsSq]
  simp only [GaussianFactor.sq, sq]

/-! ### The transposed product -/

namespace GaussianFactor

theorem fitsTransposed_iff {f : GaussianFactor ℝ} {e : Vec ℝ} {x : BlockVector ℝ} :
    f.fitsTransposed e x = true ↔
      ∀ t ∈ f.terms, t.2.height = e.size ∧ ∀ v, x.get? t.1 = some v → v.size = t.2.cols := by
  unfold fitsTransposed
  rw [List.all_eq_true]
  refine forall₂_congr fun t _ => ?_
  cases x.get? t.1 <;> simp

/-- **Adding a transposed product** adds the inner product of the vector with the values of the
factor. -/
theorem transposeMultiplyAdd_spec {f : GaussianFactor ℝ}
    (hf : ∀ t ∈ f.terms, dims.get? t.1 = some t.2.cols) {e : Vec ℝ} (he : e.size = f.height)
    {x : BlockVector ℝ} (hx : Within dims x) :
    f.fitsTransposed e x = true ∧ Within dims (f.transposeMultiplyAdd 1 e x) ∧
      ∀ p, pairing dims dims.keys.toFinset (f.transposeMultiplyAdd 1 e x).coord p =
        pairing dims dims.keys.toFinset x.coord p + ∑ i ∈ range f.height,
        e.get i * f.value p i := by
  have hheight : ∀ t ∈ f.terms, t.2.height = e.size := fun t ht => (f.height_eq t ht).trans he.symm
  obtain ⟨hw, -, hp⟩ := BlockVector.foldl_addBlock 1
    (f.terms.map fun t => (t.1, t.2.transposeMulVec e)) hx fun a ha => by
      obtain ⟨t, ht, rfl⟩ := List.mem_map.mp ha
      rw [hf t ht, Mat.size_transposeMulVec]
  rw [List.foldl_map] at hw hp
  refine ⟨fitsTransposed_iff.mpr fun t ht => ⟨hheight t ht, fun v hv => ?_⟩, hw, fun p => ?_⟩
  · have h := hx t.1 v hv
    rw [hf t ht] at h
    exact (Option.some.inj h).symm
  · unfold transposeMultiplyAdd
    rw [hp, List.map_map, one_mul, ← he]
    congr 1
    refine ((sum_mul_rowValue e hheight p).trans ?_).symm
    congr 1
    refine List.map_congr_left fun t _ => ?_
    change _ = ∑ i ∈ range (t.2.transposeMulVec e).size, _
    rw [Mat.size_transposeMulVec]

end GaussianFactor

namespace GaussianGraph

theorem foldl_transposeMultiplyAdd {es : List (Vec ℝ)} (hc : Consistent dims fs)
    (he : List.Forall₂ (fun f e => e.size = f.height) fs es) {x : BlockVector ℝ}
    (hx : Within dims x) : fitsTransposed.go x (List.zip fs es) = true ∧
      ∃ x', (List.zip fs es).foldl (fun acc a => a.1.transposeMultiplyAdd 1 a.2 acc) x = x' ∧
        Within dims x' ∧ ∀ p, pairing dims dims.keys.toFinset x'.coord p =
          pairing dims dims.keys.toFinset x.coord p +
            ((List.zip fs es).map fun a => ∑ i ∈ range a.1.height,
              a.2.get i * a.1.value p i).sum := by
  induction he generalizing x with
  | nil => exact ⟨rfl, x, rfl, hx, fun p => by simp⟩
  | @cons f e fs es he _ ih =>
    obtain ⟨hf, hfs⟩ := List.forall_mem_cons.mp hc
    obtain ⟨hfits, hw, hp⟩ := GaussianFactor.transposeMultiplyAdd_spec hf he hx
    obtain ⟨hgo, x', hx', hw', hp'⟩ := ih hfs hw
    refine ⟨?_, x', hx', hw', fun p => ?_⟩
    · rw [List.zip_cons_cons, fitsTransposed.go, hfits, hgo]
      rfl
    · rw [hp', hp, List.zip_cons_cons, List.map_cons, List.sum_cons, add_assoc]

/-- **The transposed product is the adjoint of the values**, for any vectors of the heights of the
factors. -/
theorem exists_transposeMultiply_of_heights {g : GaussianGraph ℝ} (hc : Consistent dims g.factors)
    {es : List (Vec ℝ)} (he : List.Forall₂ (fun f e => e.size = f.height) g.factors es) :
    ∃ x, g.transposeMultiply? es = some x ∧ Within dims x ∧
      ∀ p, pairing dims dims.keys.toFinset x.coord p =
      ((List.zip g.factors es).map fun a => ∑ i ∈ range a.1.height,
        a.2.get i * a.1.value p i).sum := by
  have hempty : Within dims (KeyMap.empty : BlockVector ℝ) := fun k v hv => by cases hv
  obtain ⟨hgo, x, hx, hw, hp⟩ := foldl_transposeMultiplyAdd hc he hempty
  refine ⟨x, ?_, hw, fun p => ?_⟩
  · rw [transposeMultiply?, fitsTransposed, hgo, if_pos rfl, transposeMultiply, hx]
  · have hzero : pairing dims dims.keys.toFinset (BlockVector.coord KeyMap.empty) p = 0 := by
      simp [pairing]
    rw [hp, hzero, zero_add]

theorem exists_transposeMultiply {g : GaussianGraph ℝ} (hc : Consistent dims g.factors)
    {e : GaussianFactor ℝ → Vec ℝ} (he : ∀ f ∈ g.factors, (e f).size = f.height) :
    ∃ x, g.transposeMultiply? (g.factors.map e) = some x ∧ Within dims x ∧
      ∀ u, ⟪toSpace dims x.coord, u⟫ =
        ⟪toRows g.factors fun f => (e f).get, valueMap dims g.factors u⟫ := by
  have hheights : List.Forall₂ (fun f e => e.size = f.height) g.factors (g.factors.map e) := by
    rw [List.forall₂_map_right_iff, List.forall₂_same]
    exact he
  obtain ⟨x, hx, hw, hp⟩ := exists_transposeMultiply_of_heights hc hheights
  refine ⟨x, hx, hw, fun u => ?_⟩
  have hzip : List.zip g.factors (g.factors.map e) = g.factors.map fun f => (f, e f) := by
    conv_lhs => rw [← List.map_id g.factors, List.map_map]
    exact List.zip_map'
  conv_lhs => rw [← Space.toSpace_point u]
  rw [inner_toSpace, hp, hzip, List.map_map]
  exact (inner_toRows _ _).symm

end GaussianGraph

/-! ### The rows of a Bayes net -/

/-- What conditionals give to the coordinates of their variables. -/
noncomputable def byKey (cs : List (Conditional ℝ)) (φ : Conditional ℝ → ℕ → ℝ) (k : Key) (i : ℕ) :
    ℝ :=
  ((cs.find? fun c => decide (c.key = k)).map fun c => φ c i).getD 0

theorem byKey_key {cs : List (Conditional ℝ)} (h : (cs.map Conditional.key).Nodup)
    (φ : Conditional ℝ → ℕ → ℝ) {c : Conditional ℝ} (hc : c ∈ cs) (i : ℕ) :
    byKey cs φ c.key i = φ c i := by
  induction cs with
  | nil => cases hc
  | cons c' cs ih =>
    obtain ⟨hkey, hcs⟩ := List.nodup_cons.mp h
    unfold byKey
    rcases List.mem_cons.mp hc with rfl | hc
    · simp
    · have hne : c'.key ≠ c.key := fun heq => hkey (heq ▸ List.mem_map_of_mem hc)
      rw [List.find?_cons_of_neg (by simpa using hne)]
      exact ih hcs hc

/-- The values of conditionals, at the coordinates of their variables. -/
noncomputable def netMap (dims : KeyMap ℕ) (cs : List (Conditional ℝ)) :
    Space dims →ₗ[ℝ] Space dims where
  toFun u := toSpace dims (byKey cs fun c => c.value u.point)
  map_add' u v := by
    rw [← toSpace_add]
    congr 1
    funext k i
    simp only [byKey, Pi.add_apply, Space.point_add]
    cases cs.find? fun c => decide (c.key = k) with
    | none => simp
    | some c => exact rowValue_add _ _ _ _
  map_smul' c u := by
    rw [RingHom.id_apply, ← toSpace_smul]
    congr 1
    funext k i
    simp only [byKey, Pi.smul_apply, Space.point_smul]
    cases cs.find? fun c => decide (c.key = k) with
    | none => simp
    | some c' => exact rowValue_smul _ _ _ _

namespace BlockTriangular

variable {cs : List (Conditional ℝ)} (h : BlockTriangular dims cs)
  (hk : ∀ k, k ∈ cs.map Conditional.key ↔ k ∈ dims.keys)
include h

theorem value_point (p : Key → ℕ → ℝ) :
    ∀ c ∈ cs, ∀ i, c.value (toSpace dims p).point i = c.value p i :=
  h.value_congr fun c hc _ hi => Space.point_toSpace p (h.wellFormed c hc).dim hi

theorem point_netMap (p : Key → ℕ → ℝ) {c : Conditional ℝ} (hc : c ∈ cs) {i : ℕ} (hi : i < c.dim) :
    (netMap dims cs (toSpace dims p)).point c.key i = c.value p i := by
  change Space.point (toSpace dims (byKey cs fun c => c.value (toSpace dims p).point)) _ _ = _
  rw [Space.point_toSpace _ (h.wellFormed c hc).dim hi, byKey_key h.nodup_keys _ hc,
    h.value_point p c hc]

include hk

theorem toSpace_eq {p q : Key → ℕ → ℝ} (hpq : ∀ c ∈ cs, ∀ i < c.dim, p c.key i = q c.key i) :
    toSpace dims p = toSpace dims q := by
  refine toSpace_congr fun k w hw i hi => ?_
  obtain ⟨c, hc, rfl⟩ := List.mem_map.mp ((hk k).mpr (KeyMap.mem_keys_iff_exists.mpr ⟨w, hw⟩))
  have hcw : c.dim = w := Option.some.inj ((h.wellFormed c hc).dim.symm.trans hw)
  exact hpq c hc i (by rwa [hcw])

theorem netMap_toSpace_eq {p q : Key → ℕ → ℝ}
    (hv : ∀ c ∈ cs, ∀ i < c.dim, c.value p i = q c.key i) :
    netMap dims cs (toSpace dims p) = toSpace dims q := by
  rw [← Space.toSpace_point (netMap dims cs (toSpace dims p))]
  exact h.toSpace_eq hk fun c hc i hi => (h.point_netMap p hc hi).trans (hv c hc i hi)

theorem netMap_injective : Function.Injective (netMap dims cs) := by
  intro u v huv
  rw [← Space.toSpace_point u, ← Space.toSpace_point v] at huv ⊢
  refine h.toSpace_eq hk (h.eq_of_value_eq fun c hc i hi => ?_)
  rw [← h.point_netMap u.point hc hi, ← h.point_netMap v.point hc hi, huv]

/-- **The values of a block triangular system** are an invertible map. -/
noncomputable def rows : Space dims ≃ₗ[ℝ] Space dims :=
  LinearEquiv.ofInjectiveEndo (netMap dims cs) (h.netMap_injective hk)

theorem rows_apply (u : Space dims) : h.rows hk u = netMap dims cs u := rfl

theorem inner_eq_sum (p q : Key → ℕ → ℝ) : ⟪toSpace dims p, toSpace dims q⟫ =
    (cs.map fun c => ∑ i ∈ range c.dim, p c.key i * q c.key i).sum := by
  have hkeys : dims.keys.toFinset = (cs.map Conditional.key).toFinset := by
    ext k
    rw [List.mem_toFinset, List.mem_toFinset, hk]
  rw [inner_toSpace, hkeys, pairing, List.sum_toFinset _ h.nodup_keys, List.map_map]
  congr 1
  refine List.map_congr_left fun c hc => ?_
  change ∑ i ∈ range ((dims.get? c.key).getD 0), _ = _
  rw [(h.wellFormed c hc).dim, Option.getD_some]

theorem inner_rows (p q : Key → ℕ → ℝ) : ⟪toSpace dims p, h.rows hk (toSpace dims q)⟫ =
    (cs.map fun c => ∑ i ∈ range c.dim, p c.key i * c.value q i).sum := by
  rw [← Space.toSpace_point (h.rows hk _), h.inner_eq_sum hk]
  congr 1
  refine List.map_congr_left fun c hc => sum_congr rfl fun i hi => ?_
  rw [rows_apply, h.point_netMap q hc (mem_range.mp hi)]

/-- **The squared distances** from the right-hand sides are those from a point where they vanish. -/
theorem conditionalsSq_eq_norm_sq {d : Key → ℕ → ℝ}
    (hd : ∀ c ∈ cs, ∀ i < c.dim, c.value d i = c.d.get i) (p : Key → ℕ → ℝ) :
    conditionalsSq cs p = ‖h.rows hk (toSpace dims p) - h.rows hk (toSpace dims d)‖ ^ 2 := by
  have hp : h.rows hk (toSpace dims p) = toSpace dims (byKey cs fun c => c.value p) :=
    h.netMap_toSpace_eq hk fun c hc i _ => (byKey_key h.nodup_keys (fun c => c.value p) hc i).symm
  have hd' : h.rows hk (toSpace dims d) = toSpace dims (byKey cs fun c => c.d.get) :=
    h.netMap_toSpace_eq hk fun c hc i hi => by
      rw [hd c hc i hi, byKey_key h.nodup_keys (fun c => c.d.get) hc]
  have hsub : h.rows hk (toSpace dims p) - h.rows hk (toSpace dims d) =
      toSpace dims (byKey cs (fun c => c.value p) - byKey cs fun c => c.d.get) := by
    rw [hp, hd']
    rfl
  rw [hsub, ← real_inner_self_eq_norm_sq, h.inner_eq_sum hk, conditionalsSq]
  congr 1
  refine List.map_congr_left fun c hc => sum_congr rfl fun i _ => ?_
  simp only [Pi.sub_apply, byKey_key h.nodup_keys _ hc, sq]

end BlockTriangular

namespace BayesNet

variable {net : BayesNet ℝ} (h : BlockTriangular dims net.conditionals)
  (hk : ∀ k, k ∈ net.conditionals.map Conditional.key ↔ k ∈ dims.keys)
include h hk

/-- **Solving backwards is the inverse of the rows.** -/
theorem exists_backsubstitute {y : BlockVector ℝ} (hy : y.widths = dims) :
    ∃ x, (net.backsubstitute y).outcome = .ok x ∧ x.widths = dims ∧
      h.rows hk (toSpace dims x.coord) = toSpace dims y.coord := by
  obtain ⟨x, hx, hw, hv⟩ := exists_solveBackwards h (fun c => y.blockOr c.key c.dim) fun c hc => by
    obtain ⟨v, hv, hs⟩ :=
      BlockVector.exists_of_get?_widths (x := y) (by rw [hy, (h.wellFormed c hc).dim])
    rw [BlockVector.blockOr, hv, Option.getD_some, hs]
  refine ⟨x, hx, widths_eq_of_keys hk hw, h.netMap_toSpace_eq hk fun c hc i hi => ?_⟩
  rw [hv c hc i hi, BlockVector.get_blockOr]

/-- **Solving forwards is the adjoint of the inverse of the rows.** -/
theorem exists_backsubstituteTransposed {x : BlockVector ℝ} (hx : Within dims x) :
    ∃ z, (net.backsubstituteTransposed x).outcome = .ok z ∧ z.widths = dims ∧
      ∀ u, ⟪toSpace dims z.coord, h.rows hk u⟫ = ⟪toSpace dims x.coord, u⟫ := by
  have hempty : Within dims (KeyMap.empty : BlockVector ℝ) := fun k v hv => by cases hv
  obtain ⟨z, hz, hw, -, hp⟩ := exists_solveForwards h (z := KeyMap.empty) hx hempty
  refine ⟨z, hz, widths_eq_of_keys hk hw, fun u => ?_⟩
  have hcurrent : current x KeyMap.empty = x.coord := rfl
  rw [← Space.toSpace_point u, h.inner_rows hk, hp, hcurrent, inner_toSpace]
  congr 1
  ext k
  rw [List.mem_toFinset, List.mem_toFinset, hk]

end BayesNet

end Smoothing
