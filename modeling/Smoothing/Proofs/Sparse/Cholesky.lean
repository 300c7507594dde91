import Mathlib
import Smoothing.Proofs.Sparse.Factor

/-!
# Solving sparse systems

Substitution with a lower triangular factor solves `L y = b` (`LowerFactor.forward_spec`) and
`Lᵀ x = y` (`LowerFactor.backward_spec`), whatever the places of its entries are. So if a symmetric
system has a factor, what is found is its solution: `SparseSystem.solve_spec`.
-/

open Finset

namespace Smoothing

open SparseVec

namespace SparseVec

theorem sum_entries {n : ℕ} {v : SparseVec ℝ} (hv : Below n v) (x : ℕ → ℝ) :
    (v.map fun e => e.2 * x e.1).sum = ∑ i ∈ range n, value v i * x i := by
  induction v with
  | nil => simp
  | cons e v ih =>
    have he : e.1 < n := hv e List.mem_cons_self
    rw [List.map_cons, List.sum_cons, ih fun e' he' => hv e' (List.mem_cons_of_mem _ he')]
    simp only [value_cons, add_mul, sum_add_distrib, ite_mul, zero_mul, sum_ite_eq, mem_range, he,
      if_true]

end SparseVec

namespace LowerFactor

variable {f : LowerFactor ℝ} (hf : f.IsLower)

theorem strandSum_real (a b c d : ℝ) (l : List ℝ) :
    strandSum a b c d l = a + b + c + d + l.sum := by
  fun_induction strandSum a b c d l with
  | case1 a b c d p q r s rest ih =>
    rw [ih]
    simp only [List.sum_cons]
    ring
  | case2 a b c d rest _ =>
    rw [Scalar.foldl_add_real]
    ring

include hf

/-! ### Forwards -/

/-- Right-hand sides of which the first `k` are replaced by coordinates of the solution. -/
def Forwards (f : LowerFactor ℝ) (b : ℕ → ℝ) (k : ℕ) (y : Array ℝ) : Prop :=
  y.size = f.size ∧ ∀ i < f.size,
    (if i < k then 0 else y.getD i 0) + ∑ t ∈ range k, f.entry i t * y.getD t 0 = b i

theorem Forwards.step {b : ℕ → ℝ} {k : ℕ} {y : Array ℝ} (h : Forwards f b k y) {c : LowerColumn ℝ}
    (hc : f[k]? = some c) : Forwards f b (k + 1) (forwardStep y (c, k)) := by
  obtain ⟨hs, h⟩ := h
  have hk : k < f.size := (Array.getElem?_eq_some_iff.mp hc).1
  have hd : c.diagonal ≠ 0 := (hf.diagonal k c hc).ne'
  set x := y.getD k 0 * (1 / c.diagonal) with hx
  have hget : ∀ i < f.size, (forwardStep y (c, k)).getD i 0 =
      if i = k then x else y.getD i 0 - value c.below i * x := by
    intro i hi
    rw [forwardStep, getD_setIfInBounds, size_foldl_sub, hs]
    by_cases hik : i = k
    · rw [if_pos ⟨hik, hi⟩, if_pos hik]
    · rw [if_neg fun h => hik h.1, if_neg hik, getD_foldl_sub _ _ _ (by rwa [hs])]
  have hbefore : ∀ t < k, (forwardStep y (c, k)).getD t 0 = y.getD t 0 := by
    intro t ht
    have hz : value c.below t = 0 :=
      value_eq_zero fun e he => (ht.trans (hf.below k c hc e he).1).ne'
    rw [hget t (by omega), if_neg ht.ne, hz, zero_mul, sub_zero]
  refine ⟨by rw [forwardStep, Array.size_setIfInBounds, size_foldl_sub, hs], fun i hi => ?_⟩
  have hsum : ∑ t ∈ range k, f.entry i t * (forwardStep y (c, k)).getD t 0 =
      ∑ t ∈ range k, f.entry i t * y.getD t 0 :=
    sum_congr rfl fun t ht => by rw [hbefore t (mem_range.mp ht)]
  rw [sum_range_succ, hsum, hget k hk, if_pos rfl, ← h i hi]
  rcases lt_trichotomy i k with hik | rfl | hik
  · rw [if_pos (by omega), if_pos hik, hf.entry_of_lt hik]
    ring
  · rw [if_pos (by omega), if_neg (lt_irrefl i), entry_of_getElem? hc, if_pos rfl, hx]
    field_simp
    ring
  · rw [if_neg (by omega), if_neg (by omega), hget i hi, if_neg hik.ne', entry_of_getElem? hc,
      if_neg hik.ne']
    ring

theorem forward_spec {b : Array ℝ} (hb : b.size = f.size) :
    (f.forward b).size = f.size ∧ ∀ i < f.size,
      ∑ t ∈ range f.size, f.entry i t * (f.forward b).getD t 0 = b.getD i 0 := by
  have haux : ∀ (cs : List (LowerColumn ℝ)) (k : ℕ) (y : Array ℝ), f.toList.drop k = cs →
      k ≤ f.size → Forwards f (fun i => b.getD i 0) k y →
        Forwards f (fun i => b.getD i 0) f.size ((cs.zipIdx k).foldl forwardStep y) := by
    intro cs
    induction cs with
    | nil =>
      intro k y hk hle hy
      rw [List.drop_eq_nil_iff, Array.length_toList] at hk
      obtain rfl : k = f.size := le_antisymm hle hk
      exact hy
    | cons c cs ih =>
      intro k y hk hle hy
      have hc : f[k]? = some c := by
        rw [← Array.getElem?_toList, ← List.head?_drop, hk, List.head?_cons]
      have hlt : k < f.size := (Array.getElem?_eq_some_iff.mp hc).1
      rw [List.zipIdx_cons, List.foldl_cons]
      refine ih (k + 1) _ ?_ hlt (hy.step hf hc)
      rw [← List.drop_drop, hk]
      rfl
  have hstart : Forwards f (fun i => b.getD i 0) 0 b := ⟨hb, fun i _ => by simp⟩
  obtain ⟨hs, h⟩ := haux f.toList 0 b List.drop_zero (Nat.zero_le _) hstart
  refine ⟨hs, fun i hi => ?_⟩
  have := h i hi
  rwa [if_pos hi, zero_add] at this

/-! ### Backwards -/

/-- Right-hand sides of which those from `k` on are replaced by coordinates of the solution. -/
def Backwards (f : LowerFactor ℝ) (b : ℕ → ℝ) (k : ℕ) (x : Array ℝ) : Prop :=
  x.size = f.size ∧ ∀ j < f.size,
    (if k ≤ j then ∑ i ∈ range f.size, f.entry i j * x.getD i 0 else x.getD j 0) = b j

theorem Backwards.step {b : ℕ → ℝ} {k : ℕ} {x : Array ℝ} (h : Backwards f b (k + 1) x)
    {c : LowerColumn ℝ} (hc : f[k]? = some c) : Backwards f b k (backwardStep (c, k) x) := by
  obtain ⟨hs, h⟩ := h
  have hk : k < f.size := (Array.getElem?_eq_some_iff.mp hc).1
  have hd : c.diagonal ≠ 0 := (hf.diagonal k c hc).ne'
  set new := backwardStep (c, k) x with hnew
  set v :=
    (x.getD k 0 - ∑ i ∈ range f.size, value c.below i * x.getD i 0) * (1 / c.diagonal) with hv
  have hstep : new = x.setIfInBounds k v := by
    have hbelow : Below f.size c.below := fun e he => (hf.below k c hc e he).2
    rw [hnew, backwardStep, strandSum_real, List.map_reverse, List.sum_reverse,
      sum_entries hbelow fun i => x.getD i 0, hv]
    norm_num
  have hget : ∀ i < f.size, new.getD i 0 = if i = k then v else x.getD i 0 := by
    intro i hi
    rw [hstep, getD_setIfInBounds, hs]
    by_cases hik : i = k
    · rw [if_pos ⟨hik, hi⟩, if_pos hik]
    · rw [if_neg fun h => hik h.1, if_neg hik]
  refine ⟨by rw [hstep, Array.size_setIfInBounds, hs], fun j hj => ?_⟩
  rw [← h j hj]
  rcases lt_trichotomy j k with hjk | rfl | hjk
  · rw [if_neg (by omega), if_neg (by omega), hget j hj, if_neg hjk.ne]
  · -- the column itself: its diagonal times the new coordinate, and what is below
    have hz : value c.below j = 0 := value_eq_zero fun e he => (hf.below j c hc e he).1.ne'
    have hterm : ∀ i ∈ range f.size, f.entry i j * new.getD i 0 =
        value c.below i * x.getD i 0 + if i = j then c.diagonal * v else 0 := by
      intro i hi
      rw [entry_of_getElem? hc, hget i (mem_range.mp hi)]
      by_cases hij : i = j
      · rw [hij, if_pos rfl, if_pos rfl, if_pos rfl, hz]
        ring
      · rw [if_neg hij, if_neg hij, if_neg hij, add_zero]
    rw [if_pos le_rfl, if_neg (by omega), sum_congr rfl hterm, sum_add_distrib, sum_ite_eq',
      if_pos (mem_range.mpr hj), hv]
    field_simp
    ring
  · rw [if_pos hjk.le, if_pos (by omega)]
    refine sum_congr rfl fun i hi => ?_
    rw [hget i (mem_range.mp hi)]
    by_cases hik : i = k
    · rw [hik, hf.entry_of_lt hjk, zero_mul, zero_mul]
    · rw [if_neg hik]

theorem backward_spec {b : Array ℝ} (hb : b.size = f.size) :
    (f.backward b).size = f.size ∧ ∀ j < f.size,
      ∑ i ∈ range f.size, f.entry i j * (f.backward b).getD i 0 = b.getD j 0 := by
  have haux : ∀ (cs : List (LowerColumn ℝ)) (k : ℕ), f.toList.drop k = cs →
      k ≤ f.size → Backwards f (fun i => b.getD i 0) k ((cs.zipIdx k).foldr backwardStep b) := by
    intro cs
    induction cs with
    | nil =>
      intro k hk hle
      rw [List.drop_eq_nil_iff, Array.length_toList] at hk
      refine ⟨hb, fun j hj => ?_⟩
      rw [if_neg (by omega)]
      rfl
    | cons c cs ih =>
      intro k hk hle
      have hc : f[k]? = some c := by
        rw [← Array.getElem?_toList, ← List.head?_drop, hk, List.head?_cons]
      have hlt : k < f.size := (Array.getElem?_eq_some_iff.mp hc).1
      rw [List.zipIdx_cons, List.foldr_cons]
      refine Backwards.step hf (ih (k + 1) ?_ hlt) hc
      rw [← List.drop_drop, hk]
      rfl
  obtain ⟨hs, h⟩ := haux f.toList 0 List.drop_zero (Nat.zero_le _)
  refine ⟨hs, fun j hj => ?_⟩
  have := h j hj
  rwa [if_pos (Nat.zero_le j)] at this

omit hf in
/-- **Both substitutions together** solve the system of the product of the factors. -/
theorem IsFactor.solve {H : ℕ → ℕ → ℝ} (hf : f.IsFactor H) {b : Array ℝ} (hb : b.size = f.size) :
    ∀ p < f.size, ∑ q ∈ range f.size, H p q * (f.backward (f.forward b)).getD q 0 = b.getD p 0 := by
  obtain ⟨hys, hy⟩ := forward_spec hf.toIsLower hb
  obtain ⟨-, hx⟩ := backward_spec hf.toIsLower hys
  intro p hp
  calc ∑ q ∈ range f.size, H p q * (f.backward (f.forward b)).getD q 0
      = ∑ q ∈ range f.size, ∑ t ∈ range f.size,
          f.entry p t * (f.entry q t * (f.backward (f.forward b)).getD q 0) := by
        refine sum_congr rfl fun q hq => ?_
        rw [← hf.mul p hp q (mem_range.mp hq), sum_mul]
        exact sum_congr rfl fun t _ => mul_assoc _ _ _
    _ = ∑ t ∈ range f.size, f.entry p t * (f.forward b).getD t 0 := by
        rw [sum_comm]
        refine sum_congr rfl fun t ht => ?_
        rw [← mul_sum, hx t (mem_range.mp ht)]
    _ = b.getD p 0 := hy p hp

end LowerFactor

/-! ### The order of the unknowns -/

section Order
variable {n : ℕ} {order : List ℕ} (ho : order.Perm (List.range n))
include ho

theorem getD_order_lt {p : ℕ} (hp : p < n) : order.getD p 0 < n := by
  have hl : order.length = n := by rw [ho.length_eq, List.length_range]
  rw [List.getD_eq_getElem _ _ (by rwa [hl])]
  exact List.mem_range.mp (ho.mem_iff.mp (List.getElem_mem _))

theorem idxOf_lt {i : ℕ} (hi : i < n) : order.idxOf i < n := by
  have hl : order.length = n := by rw [ho.length_eq, List.length_range]
  have hm : i ∈ order := ho.mem_iff.mpr (List.mem_range.mpr hi)
  rw [← hl]
  exact List.idxOf_lt_length_of_mem hm

theorem getD_idxOf {i : ℕ} (hi : i < n) : order.getD (order.idxOf i) 0 = i := by
  have hm : i ∈ order := ho.mem_iff.mpr (List.mem_range.mpr hi)
  rw [List.getD_eq_getElem _ _ (List.idxOf_lt_length_of_mem hm), List.getElem_idxOf]

theorem idxOf_getD {p : ℕ} (hp : p < n) : order.idxOf (order.getD p 0) = p := by
  have hl : order.length = n := by rw [ho.length_eq, List.length_range]
  have hn : order.Nodup := ho.nodup_iff.mpr List.nodup_range
  rw [List.getD_eq_getElem _ _ (by rwa [hl])]
  exact hn.idxOf_getElem p (by rwa [hl])

theorem getD_map_order {β : Type} (g : ℕ → β) (d : β) {p : ℕ} (hp : p < n) :
    (order.map g).getD p d = g (order.getD p 0) := by
  have hl : order.length = n := by rw [ho.length_eq, List.length_range]
  rw [List.getD_eq_getElem _ _ (by rwa [List.length_map, hl]), List.getElem_map,
    List.getD_eq_getElem _ _ (by rwa [hl])]

theorem sum_order (g : ℕ → ℝ) : ∑ p ∈ range n, g (order.getD p 0) = ∑ i ∈ range n, g i := by
  have hl : order.length = n := by rw [ho.length_eq, List.length_range]
  have hsum : ((List.range n).map g).sum = ∑ i ∈ range n, g i := by
    rw [sum_map_eq_sum_range _ g 0, List.length_range]
    exact sum_congr rfl fun i hi => by
      rw [List.getD_eq_getElem _ _ (by simpa using hi), List.getElem_range]
  rw [← hsum, ← (ho.map g).sum_eq, sum_map_eq_sum_range _ g 0, hl]

end Order

namespace SparseSystem

variable {s : SparseSystem ℝ} {order : List ℕ} (ho : order.Perm (List.range s.size))
  (ht : Tidy s.size s.columns)

/-- The matrix with its unknowns in other places. -/
noncomputable def reordered (s : SparseSystem ℝ) (order : List ℕ) (m q : ℕ) : ℝ :=
  s.entry (order.getD q 0) (order.getD m 0)

include ho ht in
/-- The rows that are handed to the factorization are those of the reordered matrix. -/
theorem rowAt_spec {place : ℕ → ℕ} (hp : ∀ i < s.size, place i = order.idxOf i) {m : ℕ}
    (hm : m < s.size) :
    (∀ q < m, value (s.rowAt place (order.getD m 0)).1 q = s.reordered order m q) ∧
      (s.rowAt place (order.getD m 0)).2 = s.reordered order m m := by
  have hlt := getD_order_lt ho hm
  have hpm : place (order.getD m 0) = m := by rw [hp _ hlt, idxOf_getD ho hm]
  obtain ⟨hsorted, hbelow⟩ := ht (order.getD m 0)
  refine ⟨fun q hq => ?_, hsorted.lookup_eq_value _⟩
  have haux : ∀ es : SparseVec ℝ, Below s.size es →
      value ((es.filter fun e => decide (place e.1 < m)).map
      fun e => (place e.1, e.2)) q = value es (order.getD q 0) := by
    intro es hes
    induction es with
    | nil => rfl
    | cons e es ih =>
      have he : e.1 < s.size := hes e List.mem_cons_self
      have hiff : place e.1 = q ↔ e.1 = order.getD q 0 := by
        rw [hp _ he]
        constructor
        · intro h
          rw [← h, getD_idxOf ho he]
        · intro h
          rw [h, idxOf_getD ho (hq.trans hm)]
      have hrest := ih fun e' he' => hes e' (List.mem_cons_of_mem _ he')
      rw [List.filter_cons, value_cons, ← hrest]
      by_cases hlt' : place e.1 < m
      · rw [if_pos (decide_eq_true hlt'), List.map_cons, value_cons]
        simp only [hiff]
      · have hne : ¬ e.1 = order.getD q 0 := fun h => hlt' (by rw [hiff.mpr h]; exact hq)
        rw [if_neg (by simpa using hlt'), if_neg hne, zero_add]
  have hrow : (s.rowAt place (order.getD m 0)).1 = (((s.columns.getD (order.getD m 0) []).filter
      fun e => decide (place e.1 < m)).map fun e => (place e.1, e.2)) := by
    rw [rowAt, hpm]
  rw [hrow, haux _ hbelow]
  rfl

/-- **A symmetric system that is factored is solved.** -/
theorem solve_spec (ht : Tidy s.size s.columns) (hsym : ∀ i j, s.entry i j = s.entry j i)
    {v : Vec ℝ} (h : s.solve = .ok v) : v.size = s.size ∧ ∀ i < s.size,
      ∑ j ∈ range s.size, s.entry i j * v.get j = s.rhs.getD i 0 := by
  unfold solve at h
  set order := FillOrder.ofNeighbours s.size s.neighbours with horder
  have ho : order.Perm (List.range s.size) := FillOrder.perm_ofNeighbours _ _
  set places := ((List.range s.size).map order.idxOf).toArray with hplaces
  have hp : ∀ i < s.size, places.getD i 0 = order.idxOf i := by
    intro i hi
    rw [hplaces, Array.getD_eq_getD_getElem?, List.getElem?_toArray, List.getElem?_map,
      List.getElem?_range hi]
    rfl
  simp only at h
  rcases hf : LowerFactor.ofRows (order.map (s.rowAt fun i => places.getD i 0)) with e | f
  · rw [hf] at h
    cases h
  · rw [hf] at h
    cases h
    have hlen : order.length = s.size := by rw [ho.length_eq, List.length_range]
    have hrow := fun m hm => rowAt_spec ho ht hp (m := m) hm
    obtain ⟨hsize, hfac⟩ := LowerFactor.ofRows_spec (H := s.reordered order) (fun _ _ => hsym _ _)
      (fun m hm q hq => by
        rw [List.length_map, hlen] at hm
        rw [getD_map_order ho _ _ hm, (hrow m hm).1 q hq])
      (fun m hm => by
        rw [List.length_map, hlen] at hm
        rw [getD_map_order ho _ _ hm, (hrow m hm).2]) hf
    rw [List.length_map, hlen] at hsize
    set b := (order.map fun i => s.rhs.getD i 0).toArray with hb
    have hbs : b.size = f.size := by rw [hb, List.size_toArray, List.length_map, hlen, hsize]
    have hbv : ∀ p < s.size, b.getD p 0 = s.rhs.getD (order.getD p 0) 0 := by
      intro p hp
      rw [hb, ← getD_map_order ho (fun i => s.rhs.getD i 0) 0 hp, Array.getD_eq_getD_getElem?,
        List.getElem?_toArray, List.getD_eq_getElem?_getD]
    have hsolve := hfac.solve hbs
    rw [hsize] at hsolve
    set x := f.backward (f.forward b) with hx
    have hv : ∀ j < s.size,
        (⟨(List.range s.size).map fun i => x.getD (places.getD i 0) 0⟩ : Vec ℝ).get j =
        x.getD (order.idxOf j) 0 := by
      intro j hj
      rw [← hp j hj]
      exact getD_map_range _ hj
    refine ⟨by simp, fun i hi => ?_⟩
    have hi' := idxOf_lt ho hi
    have hgi := getD_idxOf ho hi
    rw [← hgi, ← hbv _ hi', ← hsolve _ hi', ← sum_order ho]
    refine sum_congr rfl fun q hq => ?_
    have hq := mem_range.mp hq
    rw [hv _ (getD_order_lt ho hq), idxOf_getD ho hq, hsym]
    rfl

end SparseSystem

end Smoothing
