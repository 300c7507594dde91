import Mathlib
import Smoothing.Proofs.Linear.Adjoint

/-!
# The transposed product

The products of a problem with a vector and the sums of its transposed products are adjoint: the
inner products of `A x` with vectors `e`, one for each factor, add up to that of `x` with `Aᵀ e`
(**`GaussianGraph.multiply_adjoint`**). Blocks may be missing on both sides: `x` need not have a
block for every variable and may have others, and `Aᵀ e` has blocks for the variables of the problem
only, each put in place by the first factor that mentions it. That blocks of several factors are
added up one after the other is the rule for sums of block vectors (`BlockVector.axpy_spec`).
-/

open Finset

namespace Smoothing

namespace GaussianGraph

variable {g : GaussianGraph ℝ} {dims : KeyMap ℕ}

theorem fits_of_fits (hdims : g.dims.outcome = .ok dims) {x : BlockVector ℝ}
    (hx : g.fits x = true) : Fits dims x := by
  obtain ⟨hc, hkeys⟩ := dims_of_ok hdims
  intro k w v hw hv
  have hk : k ∈ g.keys.keys := hkeys ▸ KeyMap.mem_keys_iff_exists.mpr ⟨w, hw⟩
  obtain ⟨f, hf, hkf⟩ := mem_keys_keys.mp hk
  obtain ⟨t, ht, rfl⟩ := List.mem_map.mp hkf
  rw [GaussianFactor.fits_iff.mp (List.all_eq_true.mp hx f hf) t ht v hv]
  exact Option.some.inj ((hc f hf t ht).symm.trans hw)

theorem sum_dot_multiply (x : BlockVector ℝ) (es : List (Vec ℝ)) :
    (List.zipWith Vec.dot (g.multiply x) es).sum =
      ((List.zip g.factors es).map fun a => ∑ i ∈ range a.1.height,
        a.2.get i * a.1.value x.coord i).sum := by
  rw [multiply, List.zipWith_map_left, List.zip, List.map_zipWith]
  congr 1
  refine congrArg (fun φ => List.zipWith φ g.factors es) (funext₂ fun f e => ?_)
  have hsize := (Nat.min_le_left (f.multiply x).size e.size).trans (f.size_multiply x).le
  rw [Vec.dot_eq_sum _ _ hsize]
  exact sum_congr rfl fun i _ => by rw [f.get_multiply, mul_comm]

/-- **The product with a problem and the transposed product are adjoint**, for a vector of the right
widths, of which blocks may be missing, and one vector of the right length for each factor. Block
vectors are vectors whose missing blocks are zero: after `c x` is added to `a` there is a block for
every key of either, and coordinates, inner products and squared norms are those of `a + c x`. -/
theorem multiply_adjoint (hdims : g.dims.outcome = .ok dims) :
    (∀ x es, g.fits x = true → List.Forall₂ (fun f e => e.size = f.height) g.factors es →
      ∃ ys t s, g.multiply? x = some ys ∧ List.Forall₂ (fun y e => y.size = e.size) ys es ∧
        g.transposeMultiply? es = some t ∧ x.dot? t = some s ∧
        (List.zipWith Vec.dot ys es).sum = s) ∧
    ∀ a x w : BlockVector ℝ, x.fits a = true → a.fits w = true → x.fits w = true → ∀ c,
      ∃ a', BlockVector.axpy? c x a = some a' ∧ (∀ k, k ∈ a'.keys ↔ k ∈ a.keys ∨ k ∈ x.keys) ∧
        (∀ k i, a'.coord k i = a.coord k i + c * x.coord k i) ∧
        (∃ p q, a.dot? w = some p ∧ x.dot? w = some q ∧ a'.dot? w = some (p + c * q)) ∧
        ∃ p, a.dot? x = some p ∧ a'.normSq = a.normSq + 2 * c * p + c ^ 2 * x.normSq := by
  refine ⟨fun x es hx hes => ?_, fun a x w hax haw hxw c => ?_⟩
  · obtain ⟨hc, -⟩ := dims_of_ok hdims
    obtain ⟨t, ht, hw, hp⟩ := exists_transposeMultiply_of_heights hc hes
    have hfits : x.fits t = true := BlockVector.fits_iff.mpr fun k u v hu hv =>
      fits_of_fits hdims hx k v.size u (hw k v hv) hu
    refine ⟨g.multiply x, t, x.dot t, if_pos hx, ?_, ht, if_pos hfits, ?_⟩
    · rw [multiply, List.forall₂_map_left_iff]
      exact hes.imp fun f e he => (f.size_multiply x).trans he.symm
    · rw [sum_dot_multiply, BlockVector.dot_comm, BlockVector.dot_eq_pairing hw, hp]
  · obtain ⟨a', ha', hkeys, hcoord, hdot, hnorm⟩ := BlockVector.axpy_spec hax c
    exact ⟨a', ha', hkeys, hcoord, hdot w haw hxw, hnorm⟩

end GaussianGraph

namespace TwoEquations

/-- A vector with a block for the second variable only. -/
noncomputable def secondVector : BlockVector ℝ := ⟨[(secondKey, ⟨[1]⟩)], by decide⟩

/-- The two equations at a vector that lacks the second variable and has another one, and the sum of
two vectors without a common key. -/
theorem multiply_adjoint_problem :
    (∃ ys t s, problem.multiply? partialVector = some ys ∧
      problem.transposeMultiply? [⟨[3]⟩, ⟨[5]⟩] = some t ∧
      partialVector.dot? t = some s ∧ (List.zipWith Vec.dot ys [⟨[3]⟩, ⟨[5]⟩]).sum = s) ∧
    ∃ a', BlockVector.axpy? 7 secondVector partialVector = some a' ∧ firstKey ∈ a'.keys ∧
      secondKey ∈ a'.keys := by
  have hdims : problem.dims.outcome = .ok dims := rfl
  obtain ⟨hadjoint, haxpy⟩ := GaussianGraph.multiply_adjoint hdims
  have hheights : List.Forall₂ (fun (f : GaussianFactor ℝ) (e : Vec ℝ) => e.size = f.height)
      problem.factors [⟨[3]⟩, ⟨[5]⟩] := .cons rfl (.cons rfl .nil)
  obtain ⟨ys, t, s, hys, -, ht, hs, hsum⟩ := hadjoint partialVector [⟨[3]⟩, ⟨[5]⟩] rfl hheights
  obtain ⟨a', ha', hkeys, -⟩ := haxpy partialVector secondVector secondVector rfl rfl rfl 7
  refine ⟨⟨ys, t, s, hys, ht, hs, hsum⟩, a', ha', (hkeys _).mpr (.inl ?_), (hkeys _).mpr (.inr ?_)⟩
  · exact List.mem_cons_self
  · exact List.mem_cons_self

end TwoEquations

end Smoothing
