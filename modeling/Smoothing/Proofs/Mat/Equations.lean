import Mathlib
import Smoothing.Mat.Equations
import Smoothing.Proofs.Mat

/-!
# Elimination solves a system

Taking a multiple of an equation away from another keeps the solutions
(`Equation.holds_reduce_iff`), and so does a change of places (`pivotFirst_spec`). So what is found
by elimination and substitution solves all equations (`holds_substitute`). The equation put first
has the largest coefficient. If it were zero, the first unknown would be in no equation, which
cannot be if the unknowns are determined; so elimination finds a solution of every system that
determines its unknowns (`exists_staircase`), and the inverse of a matrix that takes only the zero
vector to zero (`exists_inverse`).
-/

open Finset

namespace Smoothing.Mat

namespace Equation

/-- The left side at unknowns that are vectors, in one of their coordinates. -/
noncomputable def value (e : Equation ℝ) (xs : List (Vec ℝ)) (j : ℕ) : ℝ :=
  (⟨e.left⟩ : Vec ℝ).apply ⟨xs.map (·.get j)⟩

/-- The unknowns solve the equation, in all coordinates. -/
def Holds (e : Equation ℝ) (xs : List (Vec ℝ)) : Prop := ∀ j, e.value xs j = e.right.get j

/-- The equation has `n` unknowns and `w` right sides. -/
structure HasShape (n w : ℕ) (e : Equation ℝ) : Prop where
  length_left : e.left.length = n
  size_right : e.right.size = w

variable {n w : ℕ} {e p : Equation ℝ} {x : Vec ℝ} {xs : List (Vec ℝ)}

theorem left_eq (h : e.left.length = n + 1) : e.left = e.first :: e.left.tail := by
  obtain ⟨a, l, hl⟩ := List.exists_cons_of_length_eq_add_one h
  rw [first, hl]
  rfl

theorem value_cons (h : e.left.length = n + 1) (j : ℕ) :
    e.value (x :: xs) j = e.first * x.get j + (⟨e.left.tail⟩ : Vec ℝ).apply ⟨xs.map (·.get j)⟩ := by
  rw [value, left_eq h, List.map_cons, Vec.cons_apply_cons]
  rfl

/-! ### Multiples of equations -/

theorem size_subMul {c : ℝ} {u v : Vec ℝ} (h : u.size = v.size) : (subMul c u v).size = v.size := by
  rw [subMul, Vec.size_zipWith, h, min_self]

theorem get_subMul {c : ℝ} {u v : Vec ℝ} (h : u.size = v.size) (j : ℕ) :
    (subMul c u v).get j = v.get j - c * u.get j := by
  rw [subMul, Vec.get_zipWith _ (by ring) h]
  ring

theorem apply_subMul {c : ℝ} {u v z : Vec ℝ} (h : u.size = v.size) :
    (subMul c u v).apply z = v.apply z - c * u.apply z := by
  have hsize := size_subMul (c := c) h
  rw [Vec.apply_eq_sum _ _ (n := v.size) (by rw [hsize]; exact min_le_left _ _),
    Vec.apply_eq_sum v _ (n := v.size) (min_le_left _ _),
    Vec.apply_eq_sum u _ (n := v.size) (by rw [h]; exact min_le_left _ _), mul_sum,
      ← sum_sub_distrib]
  refine sum_congr rfl fun j _ => ?_
  rw [get_subMul h]
  ring

theorem length_left_reduce (hp : p.left.length = n + 1) (he : e.left.length = n + 1) :
    (p.reduce e).left.length = n := by
  have htail : (⟨p.left.tail⟩ : Vec ℝ).size = (⟨e.left.tail⟩ : Vec ℝ).size := by
    simp [hp, he]
  exact (size_subMul htail).trans (by simp [he])

theorem hasShape_reduce (hp : p.HasShape (n + 1) w) (he : e.HasShape (n + 1) w) :
    (p.reduce e).HasShape n w where
  length_left := length_left_reduce hp.length_left he.length_left
  size_right := (size_subMul (hp.size_right.trans he.size_right.symm)).trans he.size_right

theorem apply_reduce (hp : p.left.length = n + 1) (he : e.left.length = n + 1) (z : Vec ℝ) :
    (⟨(p.reduce e).left⟩ : Vec ℝ).apply z = (⟨e.left.tail⟩ : Vec ℝ).apply z -
      e.first * (1 / p.first) * (⟨p.left.tail⟩ : Vec ℝ).apply z :=
  apply_subMul (by simp [hp, he])

/-- **Taking a multiple of an equation away keeps the solutions** of that equation. -/
theorem holds_reduce_iff (hp : p.HasShape (n + 1) w) (he : e.HasShape (n + 1) w)
    (hfirst : p.first ≠ 0) (h : p.Holds (x :: xs)) : (p.reduce e).Holds xs ↔ e.Holds (x :: xs) := by
  refine forall_congr' fun j => ?_
  have hpivot := h j
  have hright : (p.reduce e).right.get j =
      e.right.get j - e.first * (1 / p.first) * p.right.get j :=
    get_subMul (hp.size_right.trans he.size_right.symm) j
  rw [value_cons hp.length_left] at hpivot
  rw [value_cons he.length_left, value, apply_reduce hp.length_left he.length_left,
    hright, ← hpivot]
  have hcancel : e.first * (1 / p.first) * (p.first * x.get j) = e.first * x.get j := by
    field_simp
  constructor
  · intro heq
    linarith
  · intro heq
    linarith

end Equation

open Equation

/-! ### The equation that comes first -/

theorem placeOfLargest_spec (most : ℝ) (place i : ℕ) (as : List ℝ) :
    (placeOfLargest most place i as = place ∧ ∀ a ∈ as, |a| ≤ most) ∨
      ∃ t, ∃ h : t < as.length, placeOfLargest most place i as = i + t ∧ most < |as[t]| ∧
      ∀ a ∈ as, |a| ≤ |as[t]| := by
  induction as generalizing most place i with
  | nil => exact .inl ⟨rfl, by simp⟩
  | cons a as ih =>
    rw [placeOfLargest]
    split_ifs with hmost
    · change most < |a| at hmost
      obtain ⟨hplace, hall⟩ | ⟨t, ht, hplace, hlt, hall⟩ := ih |a| i (i + 1)
      · exact .inr ⟨0, by simp, hplace, hmost, List.forall_mem_cons.mpr ⟨le_rfl, hall⟩⟩
      · refine .inr ⟨t + 1, by simpa using ht, by rw [Scalar.abs_real, hplace]; omega,
          hmost.trans hlt, ?_⟩
        exact List.forall_mem_cons.mpr ⟨hlt.le, hall⟩
    · change ¬ most < |a| at hmost
      obtain ⟨hplace, hall⟩ | ⟨t, ht, hplace, hlt, hall⟩ := ih most place (i + 1)
      · exact .inl ⟨hplace, List.forall_mem_cons.mpr ⟨not_lt.mp hmost, hall⟩⟩
      · refine .inr ⟨t + 1, by simpa using ht, by rw [hplace]; omega, hlt, ?_⟩
        exact List.forall_mem_cons.mpr ⟨(not_lt.mp hmost).trans hlt.le, hall⟩

/-- **The equations change places only**, and in the one that comes first the first unknown counts
most. -/
theorem pivotFirst_spec {es : List (Equation ℝ)} (hne : es ≠ []) :
    ∃ e rest, pivotFirst es = e :: rest ∧ (e :: rest).Perm es ∧
    ∀ e' ∈ es, |e'.first| ≤ |e.first| := by
  obtain ⟨e, es, rfl⟩ := List.exists_cons_of_ne_nil hne
  obtain ⟨hplace, hall⟩ | ⟨t, ht, hplace, hlt, hall⟩ :=
    placeOfLargest_spec |e.first| 0 1 (es.map first)
  · have hfirst : pivotFirst (e :: es) = e :: es := by simp [pivotFirst, hplace]
    refine ⟨e, es, hfirst, .refl _, List.forall_mem_cons.mpr ⟨le_rfl, fun e' he' => ?_⟩⟩
    exact hall _ (List.mem_map_of_mem he')
  · rw [List.length_map] at ht
    rw [List.getElem_map] at hlt hall
    rw [Nat.add_comm] at hplace
    have hfirst : pivotFirst (e :: es) = es[t] :: es.set t e := by simp [pivotFirst, hplace, ht]
    refine ⟨es[t], es.set t e, hfirst, ?_, List.forall_mem_cons.mpr ⟨hlt.le, fun e' he' => ?_⟩⟩
    · calc es[t] :: es.set t e
        _ |>.Perm (es[t] :: e :: es.eraseIdx t) := (List.set_perm_cons_eraseIdx ht e).cons _
        _ |>.Perm (e :: es[t] :: es.eraseIdx t) := .swap _ _ _
        _ |>.Perm (e :: es) := (List.getElem_cons_eraseIdx_perm ht).cons _
    · exact hall _ (List.mem_map_of_mem he')

/-! ### Substitution -/

theorem get_foldr_subMul {w : ℕ} (l : List ℝ) {xs : List (Vec ℝ)} {b : Vec ℝ}
    (hxs : ∀ x ∈ xs, x.size = w) (hb : b.size = w) :
    ((List.zip l xs).foldr (fun cx y => subMul cx.1 cx.2 y) b).size = w ∧
      ∀ j, ((List.zip l xs).foldr (fun cx y => subMul cx.1 cx.2 y) b).get j =
        b.get j - (⟨l⟩ : Vec ℝ).apply ⟨xs.map (·.get j)⟩ := by
  induction l generalizing xs with
  | nil => simp [hb]
  | cons a l ih =>
    cases xs with
    | nil => simp [hb]
    | cons x xs =>
      obtain ⟨hx, hxs⟩ := List.forall_mem_cons.mp hxs
      obtain ⟨hsize, hget⟩ := ih hxs
      have hsizes := hx.trans hsize.symm
      rw [List.zip_cons_cons, List.foldr_cons]
      refine ⟨(size_subMul hsizes).trans hsize, fun j => ?_⟩
      rw [get_subMul hsizes, hget, List.map_cons, Vec.cons_apply_cons]
      ring

/-- **The first unknown of an equation**, found from the others, solves it. -/
theorem holds_solved {n w : ℕ} {e : Equation ℝ} {xs : List (Vec ℝ)} (he : e.HasShape (n + 1) w)
    (hfirst : e.first ≠ 0) (hxs : ∀ x ∈ xs, x.size = w) :
    (((List.zip e.left.tail xs).foldr (fun cx y => subMul cx.1 cx.2 y) e.right).unscale
      e.first).size = w ∧
      e.Holds (((List.zip e.left.tail xs).foldr (fun cx y => subMul cx.1 cx.2 y) e.right).unscale
        e.first :: xs) := by
  obtain ⟨hsize, hget⟩ := get_foldr_subMul e.left.tail hxs he.size_right
  refine ⟨(Vec.size_unscale _ _).trans hsize, fun j => ?_⟩
  rw [value_cons he.length_left, Vec.get_unscale, hget]
  field_simp
  ring

variable {n w : ℕ} {es out : List (Equation ℝ)}

/-- **Elimination and substitution solve all equations.** -/
theorem holds_substitute (hlength : es.length = n) (hshape : ∀ e ∈ es, e.HasShape n w)
    (h : staircase? n es = some out) :
    (substitute out).length = n ∧ (∀ x ∈ substitute out, x.size = w) ∧
      ∀ e ∈ es, e.Holds (substitute out) := by
  induction n generalizing es out with
  | zero =>
    cases h
    obtain rfl := List.length_eq_zero_iff.mp hlength
    simp [substitute]
  | succ n ih =>
    obtain ⟨e, rest, hpivot, hperm, -⟩ := pivotFirst_spec (List.ne_nil_of_length_eq_add_one hlength)
    have hrest : ∀ e' ∈ e :: rest, e'.HasShape (n + 1) w :=
      fun e' he' => hshape e' (hperm.mem_iff.mp he')
    obtain ⟨he, hrest⟩ := List.forall_mem_cons.mp hrest
    simp only [staircase?, hpivot] at h
    split_ifs at h with hzero
    have hfirst : e.first ≠ 0 := fun h0 => hzero (beq_iff_eq.mpr h0)
    obtain ⟨out', hout', hout⟩ := Option.bind_eq_some_iff.mp h
    cases hout
    have hreduced : ∀ e' ∈ rest.map e.reduce, e'.HasShape n w :=
      List.forall_mem_map.mpr fun e' he' => hasShape_reduce he (hrest e' he')
    have hlength' : (rest.map e.reduce).length = n := by
      have hlen := hperm.length_eq
      rw [List.length_cons, hlength] at hlen
      simpa using hlen
    -- what solves the reduced equations solves the others once the first unknown solves the first
    -- equation
    obtain ⟨hxlen, hxsize, hholds⟩ := ih hlength' hreduced hout'
    obtain ⟨hsize, hsolved⟩ := holds_solved he hfirst hxsize
    refine ⟨?_, List.forall_mem_cons.mpr ⟨hsize, hxsize⟩, fun e' he' => ?_⟩
    · rw [substitute, List.length_cons, hxlen]
    · rcases List.mem_cons.mp (hperm.mem_iff.mpr he') with rfl | he'
      · exact hsolved
      · exact (holds_reduce_iff he (hrest e' he') hfirst hsolved).mp
          (hholds _ (List.mem_map_of_mem he'))

/-! ### Systems that determine their unknowns -/

/-- Only zeros make all left sides zero. -/
def Determines (n : ℕ) (es : List (Equation ℝ)) : Prop :=
  ∀ z : List ℝ, z.length = n → (∀ e ∈ es, (⟨e.left⟩ : Vec ℝ).apply ⟨z⟩ = 0) → ∀ a ∈ z, a = 0

theorem apply_cons_eq {e : Equation ℝ} (he : e.left.length = n + 1) (a : ℝ) (z : List ℝ) :
    (⟨e.left⟩ : Vec ℝ).apply ⟨a :: z⟩ = e.first * a + (⟨e.left.tail⟩ : Vec ℝ).apply ⟨z⟩ := by
  rw [left_eq he, Vec.cons_apply_cons]
  rfl

theorem first_ne_zero {e : Equation ℝ} (hshape : ∀ e ∈ es, e.left.length = n + 1)
    (hdet : Determines (n + 1) es) (hlargest : ∀ e' ∈ es, |e'.first| ≤ |e.first|) :
    e.first ≠ 0 := by
  intro hzero
  -- the vector with a one for the first unknown makes all left sides zero
  have hone : (1 : ℝ) = 0 := by
    refine hdet (1 :: List.replicate n 0) (by simp) (fun e' he' => ?_) 1 List.mem_cons_self
    have hfirst : e'.first = 0 :=
      abs_nonpos_iff.mp ((hlargest e' he').trans (by rw [hzero, abs_zero]))
    rw [apply_cons_eq (hshape e' he'), hfirst, zero_mul, zero_add,
      Vec.apply_eq_sum _ _ (n := n) ((min_le_right _ _).trans (by simp))]
    refine sum_eq_zero fun j _ => ?_
    have hget : (⟨List.replicate n 0⟩ : Vec ℝ).get j = 0 := Vec.get_zero n j
    rw [hget, mul_zero]
  exact one_ne_zero hone

/-- The other unknowns stay determined when the first one is eliminated. -/
theorem Determines.reduce {e : Equation ℝ} {rest : List (Equation ℝ)} (he : e.left.length = n + 1)
    (hrest : ∀ e' ∈ rest, e'.left.length = n + 1) (hfirst : e.first ≠ 0)
    (h : Determines (n + 1) (e :: rest)) : Determines n (rest.map e.reduce) := by
  intro z hz hzero
  -- the first unknown that solves the first equation
  have hall : ∀ e' ∈ e :: rest,
      (⟨e'.left⟩ : Vec ℝ).apply ⟨-((⟨e.left.tail⟩ : Vec ℝ).apply ⟨z⟩) / e.first :: z⟩ = 0 := by
    refine List.forall_mem_cons.mpr ⟨?_, fun e' he' => ?_⟩
    · rw [apply_cons_eq he]
      field_simp
      ring
    · have hreduced := hzero _ (List.mem_map_of_mem he')
      rw [apply_reduce he (hrest e' he')] at hreduced
      rw [apply_cons_eq (hrest e' he'), ← hreduced]
      field_simp
      ring
  exact (List.forall_mem_cons.mp (h _ (by simp [hz]) hall)).2

/-- **Elimination succeeds** on a system that determines its unknowns. -/
theorem exists_staircase (hlength : es.length = n) (hshape : ∀ e ∈ es, e.left.length = n)
    (h : Determines n es) : ∃ out, staircase? n es = some out := by
  induction n generalizing es with
  | zero => exact ⟨[], rfl⟩
  | succ n ih =>
    obtain ⟨e, rest, hpivot, hperm, hlargest⟩ :=
      pivotFirst_spec (List.ne_nil_of_length_eq_add_one hlength)
    have hfirst := first_ne_zero hshape h hlargest
    have hall : ∀ e' ∈ e :: rest, e'.left.length = n + 1 :=
      fun e' he' => hshape e' (hperm.mem_iff.mp he')
    obtain ⟨he, hrest⟩ := List.forall_mem_cons.mp hall
    have hdet : Determines (n + 1) (e :: rest) := fun z hz hzero =>
      h z hz fun e' he' => hzero e' (hperm.mem_iff.mpr he')
    have hlength' : (rest.map e.reduce).length = n := by
      have hlen := hperm.length_eq
      rw [List.length_cons, hlength] at hlen
      simpa using hlen
    have hreduced : ∀ e' ∈ rest.map e.reduce, e'.left.length = n :=
      List.forall_mem_map.mpr fun e' he' => length_left_reduce he (hrest e' he')
    obtain ⟨out, hout⟩ := ih hlength' hreduced (hdet.reduce he hrest hfirst)
    exact ⟨e :: out, by simp [staircase?, hpivot, hfirst, hout]⟩

/-! ### The inverse -/

/-- The product of a matrix with `n` rows and columns, given by its entries, and a matrix `r` is the
identity. -/
structure IsRightInverse (n : ℕ) (a : ℕ → ℕ → ℝ) (r : Mat ℝ) : Prop where
  height_eq : r.height = n
  cols_eq : r.cols = n
  sum_mul : ∀ i < n, ∀ j < n, ∑ k ∈ range n, a i k * r.get k j = if i = j then 1 else 0

theorem apply_row (n : ℕ) (p : ℕ → ℝ) (x : Vec ℝ) :
    (⟨(List.range n).map p⟩ : Vec ℝ).apply x = ∑ k ∈ range n, p k * x.get k := by
  rw [Vec.apply_eq_sum _ _ (n := n) ((min_le_left _ _).trans (by simp))]
  exact sum_congr rfl fun k hk => by rw [Vec.get, getD_map_range p (mem_range.mp hk)]

/-- **Elimination finds the inverse** of a matrix that takes only the zero vector to zero. -/
theorem exists_inverse {n : ℕ} {a : ℕ → ℕ → ℝ}
    (h : ∀ z : ℕ → ℝ, (∀ i < n, ∑ k ∈ range n, a i k * z k = 0) → ∀ k < n, z k = 0) :
    ∃ r, inverse? n a = some r ∧ IsRightInverse n a r := by
  set equation : ℕ → Equation ℝ := fun i =>
    ⟨(List.range n).map (a i), ⟨(List.range n).map fun j => if i = j then 1 else 0⟩⟩ with hequation
  have hshape : ∀ e ∈ (List.range n).map equation, e.HasShape n n :=
    List.forall_mem_map.mpr fun i _ => ⟨by simp [hequation], by simp [hequation]⟩
  have hlength : ((List.range n).map equation).length = n := by simp
  have hdet : Determines n ((List.range n).map equation) := by
    intro z hz hzero x hx
    obtain ⟨k, hk, rfl⟩ := List.getElem_of_mem hx
    have hget := h (Vec.get ⟨z⟩) (fun i hi => ?_) k (hz ▸ hk)
    · rwa [Vec.get_eq_getElem hk] at hget
    · rw [← apply_row]
      exact hzero _ (List.mem_map_of_mem (List.mem_range.mpr hi))
  obtain ⟨out, hout⟩ := exists_staircase hlength (fun e he => (hshape e he).length_left) hdet
  obtain ⟨hxlen, hxsize, hholds⟩ := holds_substitute hlength hshape hout
  have hrows := rows_ofRows hxsize
  refine ⟨ofRows n (substitute out), by simp [inverse?, ← hequation, hout], ?_, rfl,
    fun i hi j hj => ?_⟩
  · rw [height, hrows, hxlen]
  · have hrow := hholds _ (List.mem_map_of_mem (List.mem_range.mpr hi)) j
    rw [value, apply_row] at hrow
    have hright : (equation i).right.get j = if i = j then 1 else 0 :=
      getD_map_range (fun j => if i = j then 1 else 0) hj
    rw [← hright, ← hrow]
    refine sum_congr rfl fun k _ => ?_
    rw [Mat.get, hrows]
    congr 1
    exact (List.getD_map (substitute out) (⟨[]⟩ : Vec ℝ) (·.get j)).symm

end Smoothing.Mat
