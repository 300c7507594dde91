import Mathlib
import Smoothing.Proofs.Linear.Adjoint
import Smoothing.Proofs.Linear.Subgraph

/-!
# The rest of a problem on the variables of its subgraph

A subgraph may lack variables of the whole problem. All vectors of the iteration have blocks for the
variables of the subgraph only, so for them the rest of the problem is its part on these variables
(`GaussianGraph.restrict`): the products are the same (`GaussianFactor.multiply_restrict`), and the
transposed products have the same blocks for these variables
(`GaussianGraph.transposeMultiply_restrict`). The net passes over the other blocks.

Whether blocks can be added up depends on their sizes only (`GaussianGraph.fitsTransposed_congr`).
So if the right-hand side is computed, then it is that of the part on the variables of the subgraph
(`Eliminated.isTarget_restrict`), and so is the operator (`Eliminated.computes_apply_restrict`).
-/

namespace Smoothing

/-! ### Maps -/

namespace KeyMap

variable {β γ : Type} (m : KeyMap β) {n : KeyMap γ} {k : Key}

theorem get?_restrict (n : KeyMap γ) (k : Key) :
    (m.restrict n).get? k = if k ∈ n.keys then m.get? k else none := by
  split_ifs with hk
  · exact get?_restrict_of_mem m hk
  · exact get?_restrict_of_not_mem m hk

theorem restrict_insert_of_mem (v : β) (hk : k ∈ n.keys) :
    (m.insert k v).restrict n = (m.restrict n).insert k v := by
  refine ext fun j => ?_
  rw [get?_insert, get?_restrict, get?_restrict, get?_insert]
  by_cases hj : j = k
  · rw [if_pos hj, if_pos hj, if_pos (hj ▸ hk)]
  · rw [if_neg hj, if_neg hj]

theorem restrict_insert_of_not_mem (v : β) (hk : k ∉ n.keys) :
    (m.insert k v).restrict n = m.restrict n := by
  refine ext fun j => ?_
  rw [get?_restrict, get?_restrict, get?_insert]
  by_cases hj : j = k
  · rw [if_neg (hj ▸ hk), if_neg (hj ▸ hk)]
  · rw [if_neg hj]

theorem contains_iff_mem_keys {m : KeyMap β} : m.contains k = true ↔ k ∈ m.keys := mem_keys.symm

end KeyMap

section Restrict
variable {α : Type}

namespace GaussianFactor

/-- The part of a factor on some variables. -/
def restrict (f : GaussianFactor α) (dims : KeyMap ℕ) : GaussianFactor α where
  terms := f.terms.filter (dims.contains ·.1)
  rhs := f.rhs
  height_eq t ht := f.height_eq t (List.mem_of_mem_filter ht)
  nodup := f.nodup.sublist (List.filter_sublist.map _)

variable {dims : KeyMap ℕ}

theorem mem_keys_of_mem_restrict {f : GaussianFactor α} {k : Key}
    (hk : k ∈ (f.restrict dims).keys) : k ∈ dims.keys := by
  obtain ⟨t, ht, rfl⟩ := List.mem_map.mp hk
  exact KeyMap.contains_iff_mem_keys.mp (List.mem_filter.mp ht).2

theorem fits_restrict {f : GaussianFactor α} {x : BlockVector α} (h : f.fits x = true) :
    (f.restrict dims).fits x = true :=
  List.all_eq_true.mpr fun t ht => List.all_eq_true.mp h t (List.mem_of_mem_filter ht)

variable [Scalar α]

/-- **A product needs the blocks only that a vector has.** -/
theorem multiply_restrict (f : GaussianFactor α) {x : BlockVector α}
    (hx : ∀ k ∈ x.keys, k ∈ dims.keys) : (f.restrict dims).multiply x = f.multiply x := by
  unfold multiply restrict
  rw [List.foldl_filter]
  congr 1
  funext acc t
  by_cases ht : t.1 ∈ dims.keys
  · rw [if_pos (KeyMap.contains_iff_mem_keys.mpr ht)]
  · have hxt : x.get? t.1 = none := KeyMap.get?_eq_none_iff.mpr fun hmem => ht (hx _ hmem)
    rw [if_neg fun hc => ht (KeyMap.contains_iff_mem_keys.mp hc), hxt]

theorem transposeMultiplyAdd_restrict (f : GaussianFactor α) (c : α) (e : Vec α)
    (out : BlockVector α) : (f.restrict dims).transposeMultiplyAdd c e (out.restrict dims) =
      (f.transposeMultiplyAdd c e out).restrict dims := by
  have hadd : ∀ (acc : BlockVector α) (t : Key × Mat α),
      (BlockVector.addBlock c acc t.1 (t.2.transposeMulVec e)).restrict dims =
        if dims.contains t.1 then BlockVector.addBlock c (acc.restrict dims) t.1
        (t.2.transposeMulVec e)
        else acc.restrict dims := by
    intro acc t
    by_cases ht : t.1 ∈ dims.keys
    · rw [if_pos (KeyMap.contains_iff_mem_keys.mpr ht)]
      unfold BlockVector.addBlock
      rw [KeyMap.get?_restrict_of_mem acc ht]
      cases acc.get? t.1 <;> exact KeyMap.restrict_insert_of_mem _ _ ht
    · rw [if_neg fun hc => ht (KeyMap.contains_iff_mem_keys.mp hc)]
      unfold BlockVector.addBlock
      cases acc.get? t.1 <;> exact KeyMap.restrict_insert_of_not_mem _ _ ht
  unfold transposeMultiplyAdd restrict
  rw [List.foldl_filter]
  induction f.terms generalizing out with
  | nil => rfl
  | cons t ts ih => rw [List.foldl_cons, List.foldl_cons, ← ih, hadd]

end GaussianFactor

namespace GaussianGraph

/-- The part of a problem on some variables. -/
def restrict (g : GaussianGraph α) (dims : KeyMap ℕ) : GaussianGraph α :=
  ⟨g.factors.map (·.restrict dims)⟩

variable {dims : KeyMap ℕ}

theorem fits_restrict {g : GaussianGraph α} {x : BlockVector α} (h : g.fits x = true) :
    (g.restrict dims).fits x = true := by
  rw [fits, restrict, List.all_map]
  exact List.all_eq_true.mpr fun f hf => GaussianFactor.fits_restrict (List.all_eq_true.mp h f hf)

variable [Scalar α]

theorem multiply_restrict (g : GaussianGraph α) {x : BlockVector α}
    (hx : ∀ k ∈ x.keys, k ∈ dims.keys) : (g.restrict dims).multiply x = g.multiply x := by
  rw [multiply, restrict, List.map_map]
  exact List.map_congr_left fun f _ => f.multiply_restrict hx

/-- **The blocks for some variables come from the part of a problem on them.** -/
theorem transposeMultiply_restrict (g : GaussianGraph α) (es : List (Vec α)) :
    (g.restrict dims).transposeMultiply es = (g.transposeMultiply es).restrict dims := by
  have hfold : ∀ (fes : List (GaussianFactor α × Vec α)) (out : BlockVector α),
      (fes.map fun fe => (fe.1.restrict dims, fe.2)).foldl
          (fun acc fe => fe.1.transposeMultiplyAdd 1 fe.2 acc) (out.restrict dims) =
        (fes.foldl (fun acc fe => fe.1.transposeMultiplyAdd 1 fe.2 acc) out).restrict dims := by
    intro fes
    induction fes with
    | nil => exact fun _ => rfl
    | cons fe fes ih =>
      intro out
      rw [List.map_cons, List.foldl_cons, List.foldl_cons, ← ih,
        GaussianFactor.transposeMultiplyAdd_restrict]
  rw [transposeMultiply, transposeMultiply, ← hfold, restrict, List.zip_map_left]
  rfl

end GaussianGraph

end Restrict

/-! ### Sizes -/

theorem BlockVector.widths_addBlock_congr (c : ℝ) (k : Key) {x x' : BlockVector ℝ} {v v' : Vec ℝ}
    (hx : x.widths = x'.widths) (hv : v.size = v'.size) :
    (addBlock c x k v).widths = (addBlock c x' k v').widths := by
  have hget : (x.get? k).map Vec.size = (x'.get? k).map Vec.size := by
    rw [← get?_widths, ← get?_widths, hx]
  unfold addBlock
  cases hk : x.get? k with
  | none =>
    rw [hk, Option.map_none, eq_comm, Option.map_eq_none_iff] at hget
    rw [hget, widths_insert, widths_insert, Vec.size_scale, Vec.size_scale, hx, hv]
  | some w =>
    rw [hk, Option.map_some, eq_comm, Option.map_eq_some_iff] at hget
    obtain ⟨w', hw', hs⟩ := hget
    rw [hw', widths_insert, widths_insert, Vec.size_axpy, Vec.size_axpy, hx, hv, hs]

namespace GaussianFactor

theorem fitsTransposed_congr {f : GaussianFactor ℝ} {e e' : Vec ℝ} {x x' : BlockVector ℝ}
    (he : e.size = e'.size) (hx : x.widths = x'.widths) :
    f.fitsTransposed e x = f.fitsTransposed e' x' := by
  have hfits : ∀ {e e' : Vec ℝ} {x x' : BlockVector ℝ}, e.size = e'.size → x.widths = x'.widths →
      f.fitsTransposed e x = true → f.fitsTransposed e' x' = true := by
    intro e e' x x' he hx h
    rw [fitsTransposed_iff] at h ⊢
    refine fun t ht => ⟨(h t ht).1.trans he, fun v hv => ?_⟩
    obtain ⟨u, hu, hs⟩ :=
      BlockVector.exists_of_get?_widths (hx ▸ BlockVector.get?_widths_of_get? hv)
    rw [← hs, (h t ht).2 u hu]
  exact Bool.eq_iff_iff.mpr ⟨hfits he hx, hfits he.symm hx.symm⟩

theorem widths_transposeMultiplyAdd_congr (f : GaussianFactor ℝ) (c : ℝ) (e e' : Vec ℝ)
    {x x' : BlockVector ℝ} (hx : x.widths = x'.widths) :
    (f.transposeMultiplyAdd c e x).widths = (f.transposeMultiplyAdd c e' x').widths := by
  unfold transposeMultiplyAdd
  induction f.terms generalizing x x' with
  | nil => exact hx
  | cons t ts ih =>
    exact ih (BlockVector.widths_addBlock_congr c t.1 hx
      (by rw [Mat.size_transposeMulVec, Mat.size_transposeMulVec]))

end GaussianFactor

theorem BlockVector.mem_keys_of_widths {dims : KeyMap ℕ} {x : BlockVector ℝ}
    (hx : x.widths = dims) : ∀ k ∈ x.keys, k ∈ dims.keys := by
  rw [← hx, keys_widths]
  exact fun _ hk => hk

theorem GaussianGraph.fits_congr {g : GaussianGraph ℝ} {x x' : BlockVector ℝ}
    (hx : x.widths = x'.widths) (h : g.fits x = true) : g.fits x' = true := by
  refine List.all_eq_true.mpr fun f hf => GaussianFactor.fits_iff.mpr fun t ht v hv => ?_
  obtain ⟨u, hu, hs⟩ := BlockVector.exists_of_get?_widths (hx ▸ BlockVector.get?_widths_of_get? hv)
  rw [← hs, GaussianFactor.fits_iff.mp (List.all_eq_true.mp h f hf) t ht u hu]

/-- **Whether transposed products can be added up depends on the sizes only.** -/
theorem GaussianGraph.fitsTransposed_congr {g : GaussianGraph ℝ} {e e' : GaussianFactor ℝ → Vec ℝ}
    (he : ∀ f, (e f).size = (e' f).size) :
    g.fitsTransposed (g.factors.map e) = g.fitsTransposed (g.factors.map e') := by
  have hgo : ∀ (fs : List (GaussianFactor ℝ)) (x x' : BlockVector ℝ), x.widths = x'.widths →
      fitsTransposed.go x (List.zip fs (fs.map e)) =
      fitsTransposed.go x' (List.zip fs (fs.map e')) := by
    intro fs
    induction fs with
    | nil => exact fun _ _ _ => rfl
    | cons f fs ih =>
      intro x x' hx
      rw [List.map_cons, List.map_cons, List.zip_cons_cons, List.zip_cons_cons, fitsTransposed.go,
        fitsTransposed.go, GaussianFactor.fitsTransposed_congr (he f) hx,
        ih _ _ (f.widths_transposeMultiplyAdd_congr 1 _ _ hx)]
  exact hgo _ _ _ rfl

/-! ### Subgraphs without some variables -/

theorem GaussianGraph.transposeMultiply?_eq_some {g : GaussianGraph ℝ} {es : List (Vec ℝ)}
    {x : BlockVector ℝ} :
    g.transposeMultiply? es = some x ↔ g.fitsTransposed es = true ∧ g.transposeMultiply es = x := by
  rw [transposeMultiply?, Option.ite_none_right_eq_some, Option.some.injEq]

namespace SubgraphSolver

variable {dims : KeyMap ℕ} {tree rest : GaussianGraph ℝ} {net : BayesNet ℝ}
  {xbar rhs : BlockVector ℝ}

theorem rightHandSide_eq_ok {x z : BlockVector ℝ} (h : (rightHandSide net rest x).outcome = .ok z) :
    rest.fitsTransposed (rest.factors.map fun f => f.rhs - f.multiply x) = true ∧
      (net.backsubstituteTransposed
        (rest.transposeMultiply (rest.factors.map fun f => f.rhs - f.multiply x))).outcome =
        .ok z := by
  rw [rightHandSide, if_pos (fits_of_rightHandSide h)] at h
  obtain ⟨sums, hsums, hz⟩ := Logged.outcome_bind_eq_ok.mp h
  obtain ⟨hfits, rfl⟩ :=
    GaussianGraph.transposeMultiply?_eq_some.mp (Logged.outcome_fromOption_eq_ok.mp hsums)
  exact ⟨hfits, hz⟩

theorem apply_eq_ok_iff {y z : BlockVector ℝ} : (apply net rest y).outcome = .ok z ↔
    ∃ x w, (net.backsubstitute y).outcome = .ok x ∧ rest.fits x = true ∧
      rest.fitsTransposed (rest.multiply x) = true ∧
        (net.backsubstituteTransposed (rest.transposeMultiply (rest.multiply x))).outcome = .ok w ∧
          BlockVector.axpy 1 y w = z := by
  unfold apply
  simp only [Logged.outcome_bind_eq_ok, Logged.outcome_fromOption_eq_ok,
    GaussianGraph.transposeMultiply?_eq_some, GaussianGraph.multiply?,
    Option.ite_none_right_eq_some, Option.some.injEq, Logged.outcome_pure, Except.ok.injEq]
  constructor
  · rintro ⟨x, hx, -, ⟨hfits, rfl⟩, -, ⟨hfits', rfl⟩, w, hw, hz⟩
    exact ⟨x, w, hx, hfits, hfits', hw, hz⟩
  · rintro ⟨x, w, hx, hfits, hfits', hw, hz⟩
    exact ⟨x, hx, _, ⟨hfits, rfl⟩, _, ⟨hfits', rfl⟩, w, hw, hz⟩

namespace Eliminated

variable (h : Eliminated dims tree net xbar)
  (hrhs : (rightHandSide net rest xbar).outcome = .ok rhs)
include hrhs

theorem consistent_restrict (hxbar : xbar.widths = dims) :
    Consistent dims (rest.restrict dims).factors := by
  refine consistent_of_fits hxbar (fun f hf k hk => ?_)
    (GaussianGraph.fits_restrict (fits_of_rightHandSide hrhs))
  obtain ⟨f', -, rfl⟩ := List.mem_map.mp hf
  exact GaussianFactor.mem_keys_of_mem_restrict hk

include h

/-- **The right-hand side is that of the rest on the variables of the subgraph.** -/
theorem isTarget_restrict : h.IsTarget (rest.restrict dims) rhs := by
  obtain ⟨rhs', hrhs'⟩ := h.exists_isTarget (consistent_restrict hrhs h.widths)
  suffices heq : rhs' = rhs from heq ▸ hrhs'
  have hresiduals : ((rest.restrict dims).factors.map fun f => f.rhs - f.multiply xbar) =
      rest.factors.map fun f => f.rhs - f.multiply xbar := by
    rw [GaussianGraph.restrict, List.map_map]
    refine List.map_congr_left fun f _ => ?_
    change f.rhs - (f.restrict dims).multiply xbar = _
    rw [f.multiply_restrict (BlockVector.mem_keys_of_widths h.widths)]
  have hrestrict := (rightHandSide_eq_ok hrhs'.outcome).2
  rw [hresiduals, GaussianGraph.transposeMultiply_restrict,
    BayesNet.backsubstituteTransposed_restrict h.triangular h.keys] at hrestrict
  exact Except.ok.inj (hrestrict.symm.trans (rightHandSide_eq_ok hrhs).2)

/-- **The operator is that of the rest on the variables of the subgraph.** -/
theorem computes_apply_restrict :
    Computes (apply net rest) (normalOperator (h.products (rest.restrict dims))) := by
  intro y hy
  obtain ⟨z, hz, hw, hv⟩ := h.exists_apply (consistent_restrict hrhs h.widths) hy
  refine ⟨z, ?_, hw, hv⟩
  obtain ⟨x, w, hx, -, -, hforward, hzw⟩ := apply_eq_ok_iff.mp hz
  obtain ⟨x', hx', hxw, -⟩ := BayesNet.exists_backsubstitute h.triangular h.keys hy
  obtain rfl : x' = x := Except.ok.inj (hx'.symm.trans hx)
  rw [GaussianGraph.multiply_restrict _ (BlockVector.mem_keys_of_widths hxw),
    GaussianGraph.transposeMultiply_restrict,
    BayesNet.backsubstituteTransposed_restrict h.triangular h.keys] at hforward
  refine apply_eq_ok_iff.mpr ⟨x', w, hx, ?_, ?_, hforward, hzw⟩
  · exact GaussianGraph.fits_congr (h.widths.trans hxw.symm) (fits_of_rightHandSide hrhs)
  · have hsizes : ∀ f : GaussianFactor ℝ, (f.multiply x').size =
        (f.rhs - f.multiply xbar).size := fun f => by
      rw [Vec.size_sub, f.size_multiply, f.size_multiply]
      exact (min_self _).symm
    rw [GaussianGraph.multiply, GaussianGraph.fitsTransposed_congr hsizes]
    exact (rightHandSide_eq_ok hrhs).1

end Eliminated

end SubgraphSolver

end Smoothing
