import Mathlib
import Smoothing.Proofs.Linear.LeastSquares
import Smoothing.Proofs.Linear.Rows

/-!
# The two passes over a Bayes net

Solving the conditionals backwards and solving the transposed conditionals forwards are adjoint: the
inner product of `R⁻¹ y` with `w` is that of `y` with `R⁻ᵀ w`.

Both passes look at the blocks of the net's variables only. So a vector may have blocks for other
variables, of any widths, and it may be replaced by its part on the variables of the net
(`KeyMap.restrict`, `BayesNet.backsubstituteTransposed_restrict`). The inner product of two vectors
is over the keys of both, so the other blocks do not count there either
(`BlockVector.dot_eq_inner`).

Main statement: **`GaussianGraph.backsubstitute_adjoint`**.
-/

open Finset
open scoped RealInnerProductSpace

namespace Smoothing

/-! ### The part of a map on some keys -/

namespace KeyMap

variable {β γ : Type}

/-- The entries whose keys another map has. -/
def restrict (m : KeyMap β) (n : KeyMap γ) : KeyMap β :=
  ⟨m.entries.filter (n.contains ·.1), m.sorted.filter _⟩

theorem get?_restrict_of_mem (m : KeyMap β) {n : KeyMap γ} {k : Key} (hk : k ∈ n.keys) :
    (m.restrict n).get? k = m.get? k := by
  refine Option.ext fun v => ?_
  rw [get?_eq_some_iff, get?_eq_some_iff, restrict, List.mem_filter]
  exact and_iff_left (mem_keys.mp hk)

theorem get?_restrict_of_not_mem (m : KeyMap β) {n : KeyMap γ} {k : Key} (hk : k ∉ n.keys) :
    (m.restrict n).get? k = none := by
  refine Option.eq_none_iff_forall_ne_some.mpr fun v hv => hk ?_
  rw [get?_eq_some_iff, restrict, List.mem_filter] at hv
  exact mem_keys.mpr hv.2

end KeyMap

/-- The blocks of a vector have the widths of the variables as far as there are such variables. -/
def Fits {α : Type} (dims : KeyMap ℕ) (x : BlockVector α) : Prop :=
  ∀ k w v, dims.get? k = some w → x.get? k = some v → v.size = w

theorem Fits.within_restrict {α : Type} {dims : KeyMap ℕ} {x : BlockVector α} (hx : Fits dims x) :
    Within dims (x.restrict dims) := by
  intro k v hv
  by_cases hk : k ∈ dims.keys
  · rw [KeyMap.get?_restrict_of_mem x hk] at hv
    obtain ⟨w, hw⟩ := KeyMap.mem_keys_iff_exists.mp hk
    rw [hw, hx k w v hw hv]
  · rw [KeyMap.get?_restrict_of_not_mem x hk] at hv
    cases hv

/-! ### What the forward pass looks at -/

section Congr
variable {α : Type} [Scalar α] {x x' : BlockVector α}

theorem Conditional.pushToParents_congr {ps : List (Key × Mat α)}
    (hps : ∀ t ∈ ps, x.get? t.1 = x'.get? t.1) (z : Vec α) (g : BlockVector α) :
    pushToParents x z g ps = pushToParents x' z g ps := by
  induction ps generalizing g with
  | nil => rfl
  | cons t ps ih =>
    obtain ⟨hp, hps⟩ := List.forall_mem_cons.mp hps
    have hblock : x.blockOr t.1 t.2.cols = x'.blockOr t.1 t.2.cols := congrArg (Option.getD · _) hp
    rw [pushToParents, pushToParents, hblock, ih hps]

namespace BayesNet

theorem solveForwards_congr {cs : List (Conditional α)}
    (hcs : ∀ c ∈ cs, x.get? c.key = x'.get? c.key ∧ ∀ t ∈ c.parents, x.get? t.1 = x'.get? t.1)
    (g z : BlockVector α) : solveForwards x g z cs = solveForwards x' g z cs := by
  induction cs generalizing g z with
  | nil => rfl
  | cons c cs ih =>
    obtain ⟨⟨hc, hparents⟩, hcs⟩ := List.forall_mem_cons.mp hcs
    have hblock : x.blockOr c.key c.dim = x'.blockOr c.key c.dim := congrArg (Option.getD · _) hc
    rw [solveForwards, solveForwards, hblock]
    simp only [Conditional.pushToParents_congr hparents, ih hcs]

end BayesNet

end Congr

namespace BayesNet

/-- The blocks of a vector have the sizes of the conditionals as far as there are such
conditionals. -/
def Admits {α : Type} (net : BayesNet α) (y : BlockVector α) : Prop :=
  ∀ c ∈ net.conditionals, ∀ v, y.get? c.key = some v → v.size = c.dim

variable {dims : KeyMap ℕ} {net : BayesNet ℝ} (h : BlockTriangular dims net.conditionals)
  (hk : ∀ k, k ∈ net.conditionals.map Conditional.key ↔ k ∈ dims.keys)
include h hk

/-- **The forward pass looks at the blocks of the net's variables only.** -/
theorem backsubstituteTransposed_restrict (x : BlockVector ℝ) :
    net.backsubstituteTransposed (x.restrict dims) = net.backsubstituteTransposed x := by
  have hget : ∀ k ∈ net.conditionals.map Conditional.key, (x.restrict dims).get? k =
      x.get? k := fun k hmem =>
    KeyMap.get?_restrict_of_mem x ((hk k).mp hmem)
  exact solveForwards_congr (fun c hc =>
    ⟨hget _ (List.mem_map_of_mem hc), fun t ht => hget _ (h.parent_mem c hc t ht)⟩) _ _

theorem Admits.fits {y : BlockVector ℝ} (hy : net.Admits y) : Fits dims y := by
  intro k w v hw hv
  obtain ⟨c, hc, rfl⟩ := List.mem_map.mp ((hk k).mpr (KeyMap.mem_keys_iff_exists.mpr ⟨w, hw⟩))
  exact (hy c hc v hv).trans (Option.some.inj ((h.wellFormed c hc).dim.symm.trans hw))

variable {y w : BlockVector ℝ} (hy : Fits dims y) (hw : Fits dims w)

include hy in
theorem exists_backsubstitute_of_fits :
    ∃ x, (net.backsubstitute y).outcome = .ok x ∧ x.widths = dims ∧
    ∀ c ∈ net.conditionals, ∀ i < c.dim, c.value x.coord i = y.coord c.key i := by
  obtain ⟨x, hx, hxw, hv⟩ := exists_solveBackwards h (fun c => y.blockOr c.key c.dim) fun c hc => by
    rw [BlockVector.blockOr]
    cases hyc : y.get? c.key with
    | none => exact Vec.size_zero _
    | some v => exact hy _ _ v (h.wellFormed c hc).dim hyc
  refine ⟨x, hx, widths_eq_of_keys hk hxw, fun c hc i hi => ?_⟩
  rw [hv c hc i hi, BlockVector.get_blockOr]

include hw in
theorem exists_backsubstituteTransposed_of_fits :
    ∃ z, (net.backsubstituteTransposed w).outcome = .ok z ∧ z.widths = dims ∧
      ∀ u, ⟪toSpace dims z.coord, h.rows hk u⟫ = ⟪toSpace dims w.coord, u⟫ := by
  obtain ⟨z, hz, hzw, hp⟩ := exists_backsubstituteTransposed h hk hw.within_restrict
  refine ⟨z, (backsubstituteTransposed_restrict h hk w) ▸ hz, hzw, fun u => ?_⟩
  rw [hp]
  congr 1
  refine toSpace_congr fun k w' hkw i _ => ?_
  rw [BlockVector.coord, BlockVector.coord,
    KeyMap.get?_restrict_of_mem w (KeyMap.mem_keys_iff_exists.mpr ⟨w', hkw⟩)]

end BayesNet

namespace GaussianGraph

/-- **The passes over a Bayes net are adjoint.** Let an elimination in an order of all variables
answer, and let two vectors have blocks of the right sizes for the variables of the net, some of
which may be missing. Then both passes succeed with exactly one block for each conditional, and the
inner product of `R⁻¹ y` with `w` is that of `y` with `R⁻ᵀ w`. The values of the conditionals at
`R⁻¹ y` are the blocks of `y`. -/
theorem backsubstitute_adjoint {g : GaussianGraph ℝ} {o : EliminationOrder} {net : BayesNet ℝ}
    (ho : o.keys.Perm g.keys.keys) (hnet : (g.eliminate o).outcome = .ok net) {y w : BlockVector ℝ}
    (hy : net.Admits y) (hw : net.Admits w) :
    ∃ x z, (net.backsubstitute y).outcome = .ok x ∧
      (net.backsubstituteTransposed w).outcome = .ok z ∧
      (x.keys.Perm (net.conditionals.map Conditional.key) ∧
        z.keys.Perm (net.conditionals.map Conditional.key)) ∧
      (∀ c ∈ net.conditionals, x.widths.get? c.key = some c.dim ∧
        z.widths.get? c.key = some c.dim) ∧
      (∃ a, x.dot? w = some a ∧ y.dot? z = some a) ∧
      ∀ c ∈ net.conditionals, ∀ i < c.dim, c.value x.coord i = y.coord c.key i := by
  obtain ⟨dims, hdims, hkeys, htri, -⟩ := eliminate_spec (fun k hk => ho.mem_iff.mpr hk) hnet
  have hperm : dims.keys.Perm (net.conditionals.map Conditional.key) := by
    rw [hkeys, (dims_of_ok hdims).2]
    exact ho.symm
  have hmem : ∀ k, k ∈ net.conditionals.map Conditional.key ↔ k ∈ dims.keys :=
    fun k => hperm.mem_iff.symm
  have hfy := hy.fits htri hmem
  have hfw := hw.fits htri hmem
  obtain ⟨x, hx, hxw, hvalue⟩ := BayesNet.exists_backsubstitute_of_fits htri hmem hfy
  obtain ⟨z, hz, hzw, hinner⟩ := BayesNet.exists_backsubstituteTransposed_of_fits htri hmem hfw
  have hfits : ∀ {u v : BlockVector ℝ}, u.widths = dims → Fits dims v →
      u.fits v = true := fun hu hv =>
    BlockVector.fits_iff.mpr fun k a b ha hb => (hv k a.size b (within_of_widths hu k a ha) hb).symm
  have hrows : htri.rows hmem (toSpace dims x.coord) = toSpace dims y.coord :=
    htri.netMap_toSpace_eq hmem hvalue
  have hdot : x.dot w = y.dot z := calc
    x.dot w = ⟪toSpace dims w.coord, toSpace dims x.coord⟫ := by
      rw [BlockVector.dot_eq_inner hxw, real_inner_comm]
    _ = ⟪toSpace dims z.coord, toSpace dims y.coord⟫ := by rw [← hinner, hrows]
    _ = y.dot z := by rw [← BlockVector.dot_eq_inner hzw, BlockVector.dot_comm]
  refine ⟨x, z, hx, hz, ⟨?_, ?_⟩, fun c hc => ?_, ⟨x.dot w, if_pos (hfits hxw hfw), ?_⟩, hvalue⟩
  · rwa [← BlockVector.keys_widths, hxw]
  · rwa [← BlockVector.keys_widths, hzw]
  · rw [hxw, hzw, and_self]
    exact (htri.wellFormed c hc).dim
  · have hyz : y.fits z = true := BlockVector.fits_iff.mpr fun k a b ha hb =>
      hfy k b.size a (within_of_widths hzw k b hb) ha
    rw [BlockVector.dot?, if_pos hyz, hdot]

end GaussianGraph

namespace TwoEquations

/-- A vector with a block for the first variable and one for a variable that is not in the net. -/
noncomputable def partialVector : BlockVector ℝ :=
  ⟨[(firstKey, ⟨[1]⟩), (⟨'z', 0⟩, ⟨[0, 1, 0]⟩)], by decide⟩

theorem admits_partialVector : net.Admits partialVector := by
  intro c hc v hv
  rcases List.mem_pair.mp hc with rfl | rfl
  · cases hv
    rfl
  · cases hv

/-- The two passes over the net of the two equations, with the second block missing. -/
theorem backsubstitute_adjoint_net : ∃ x z a, (net.backsubstitute partialVector).outcome = .ok x ∧
    (net.backsubstituteTransposed partialVector).outcome = .ok z ∧ x.dot? partialVector = some a ∧
      partialVector.dot? z = some a := by
  obtain ⟨x, z, hx, hz, -, -, ⟨a, hxa, hza⟩, -⟩ :=
    GaussianGraph.backsubstitute_adjoint (List.Perm.refl _)
    eliminate_problem admits_partialVector admits_partialVector
  exact ⟨x, z, a, hx, hz, hxa, hza⟩

end TwoEquations

end Smoothing
