import Mathlib
import Smoothing.Proofs.BlockVector

/-!
# Sums of block vectors

Adding `c · x` to `y` changes the blocks that both have, and gives `y` the blocks that only `x` has
(`get?_axpy`). A missing block counts as zero: the coordinates of the sum are `y + c x`
(`coord_axpy`), whichever blocks are missing on either side. So the inner product is linear in the
sum and the squared norm is quadratic (**`axpy_spec`**).
-/

open Finset

namespace Smoothing.BlockVector

/-! ### Blocks -/

section Blocks
variable {α : Type} [Scalar α]

/-- What a block becomes when `c · v` is added to it, where a missing block counts as zero. -/
def addedTo (c : α) (v : Vec α) : Option (Vec α) → Vec α
  | some w => Vec.axpy c v w
  | none => v.scale c

theorem addBlock_eq_insert (c : α) (y : BlockVector α) (k : Key) (v : Vec α) :
    addBlock c y k v = y.insert k (addedTo c v (y.get? k)) := by
  unfold addBlock
  cases y.get? k <;> rfl

/-- Every key is met once, so its block is added to what was there in the beginning. -/
theorem get?_foldl_addBlock (c : α) {es : List (Key × Vec α)} (hes : (es.map (·.1)).Nodup)
    (y : BlockVector α) (k : Key) : (es.foldl (fun acc e => addBlock c acc e.1 e.2) y).get? k =
      match KeyMap.find? k es with
      | some v => some (addedTo c v (y.get? k))
      | none => y.get? k := by
  induction es generalizing y with
  | nil => rfl
  | cons e es ih =>
    obtain ⟨hnot, hes⟩ := List.nodup_cons.mp hes
    rw [List.foldl_cons, ih hes, addBlock_eq_insert, KeyMap.get?_insert, KeyMap.find?]
    by_cases hk : e.1 = k
    · subst hk
      rw [KeyMap.find?_eq_none_iff.mpr hnot, if_pos rfl, if_pos rfl]
    · rw [if_neg hk, if_neg (Ne.symm hk)]

theorem get?_axpy (c : α) (x y : BlockVector α) (k : Key) : (axpy c x y).get? k =
    match x.get? k with
    | some v => some (addedTo c v (y.get? k))
    | none => y.get? k := get?_foldl_addBlock c x.nodup_keys y k

theorem mem_keys_axpy {c : α} {x y : BlockVector α} {k : Key} :
    k ∈ (axpy c x y).keys ↔ k ∈ y.keys ∨ k ∈ x.keys := by
  simp only [KeyMap.mem_keys, get?_axpy]
  cases x.get? k <;> simp

end Blocks

theorem fits_comm {α : Type} {x y : BlockVector α} (h : x.fits y = true) : y.fits x = true :=
  fits_iff.mpr fun k u v hu hv => (fits_iff.mp h k v u hv hu).symm

/-! ### Coordinates -/

section Sum
variable {x y : BlockVector ℝ} (h : x.fits y = true) (c : ℝ)
include h

theorem size_addedTo {k : Key} {v : Vec ℝ} (hv : x.get? k = some v) :
    (addedTo c v (y.get? k)).size = v.size := by
  cases hw : y.get? k with
  | none => exact Vec.size_scale v c
  | some w => rw [addedTo, Vec.size_axpy, fits_iff.mp h k v w hv hw, min_self]

theorem coord_axpy (k : Key) (i : ℕ) : (axpy c x y).coord k i = y.coord k i + c * x.coord k i := by
  cases hx : x.get? k with
  | none =>
    have hk : (axpy c x y).get? k = y.get? k := by rw [get?_axpy, hx]
    rw [coord, hk, coord_of_get?_eq_none hx, mul_zero, add_zero]
    rfl
  | some v =>
    have hk : (axpy c x y).get? k = some (addedTo c v (y.get? k)) := by rw [get?_axpy, hx]
    rw [coord_of_get? hk, coord_of_get? hx]
    cases hy : y.get? k with
    | none => rw [addedTo, Vec.get_scale, coord_of_get?_eq_none hy, zero_add, mul_comm]
    | some w => rw [addedTo, Vec.get_axpy c (fits_iff.mp h k v w hx hy), coord_of_get? hy, add_comm]

theorem fits_axpy {w : BlockVector ℝ} (hx : x.fits w = true) (hy : y.fits w = true) :
    (axpy c x y).fits w = true := by
  refine fits_iff.mpr fun k u v hu hv => ?_
  rw [get?_axpy] at hu
  cases hxk : x.get? k with
  | none =>
    rw [hxk] at hu
    exact fits_iff.mp hy k u v hu hv
  | some u' =>
    rw [hxk] at hu
    cases hu
    rw [size_addedTo h c hxk]
    exact fits_iff.mp hx k u' v hxk hv

/-! ### Inner products -/

theorem dot_axpy (w : BlockVector ℝ) : (axpy c x y).dot w = y.dot w + c * x.dot w := by
  have hpairing := fun z => dot_eq_pairing (within_of_widths (x := w) rfl) z
  rw [dot_comm, dot_comm y, dot_comm x, hpairing, hpairing, hpairing]
  simp only [pairing, coord_axpy h, mul_add, sum_add_distrib, mul_sum]
  congr 1
  exact sum_congr rfl fun k _ => sum_congr rfl fun i _ => by ring

theorem normSq_axpy : (axpy c x y).normSq = y.normSq + 2 * c * y.dot x + c ^ 2 * x.normSq := by
  rw [normSq_eq_dot, normSq_eq_dot, normSq_eq_dot, dot_axpy h, dot_comm y (axpy c x y),
    dot_comm x (axpy c x y), dot_axpy h, dot_axpy h, dot_comm x y]
  ring

end Sum

/-- **Block vectors are vectors whose missing blocks are zero.** Let two vectors agree in the
lengths of the blocks that both have. Then `a + c x` has the keys of both and the coordinates of a
sum; its inner product with a vector that goes with both is linear, and its squared norm is that of
a sum. -/
theorem axpy_spec {a x : BlockVector ℝ} (h : x.fits a = true) (c : ℝ) :
    ∃ a', axpy? c x a = some a' ∧ (∀ k, k ∈ a'.keys ↔ k ∈ a.keys ∨ k ∈ x.keys) ∧
      (∀ k i, a'.coord k i = a.coord k i + c * x.coord k i) ∧
      (∀ w, a.fits w = true → x.fits w = true →
        ∃ p q, a.dot? w = some p ∧ x.dot? w = some q ∧ a'.dot? w = some (p + c * q)) ∧
      ∃ p, a.dot? x = some p ∧ a'.normSq = a.normSq + 2 * c * p + c ^ 2 * x.normSq := by
  refine ⟨axpy c x a, if_pos h, fun k => mem_keys_axpy, coord_axpy h c, fun w haw hxw => ?_,
    a.dot x, if_pos (fits_comm h), normSq_axpy h c⟩
  refine ⟨a.dot w, x.dot w, if_pos haw, if_pos hxw, ?_⟩
  rw [dot?, if_pos (fits_axpy h c hxw haw), dot_axpy h]

end Smoothing.BlockVector
