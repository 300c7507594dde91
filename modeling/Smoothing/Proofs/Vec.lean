import Mathlib
import Smoothing.Proofs.Real

/-!
# Vectors by coordinates

A vector is its coordinates, and the coordinate past the end is zero. So an inner product is a sum
over any range that reaches as far as the shorter factor (`dot_eq_sum`, `apply_eq_sum`), and a
squared norm a sum over any range that reaches as far as the vector (`normSq_eq_sum`).
-/

open Finset

namespace Smoothing

theorem getD_map_range (p : ℕ → ℝ) {w i : ℕ} (h : i < w) :
    ((List.range w).map p).getD i 0 = p i := by
  rw [List.getD_eq_getElem _ _ (by simpa using h)]
  simp

theorem sum_map_eq_sum_range {β : Type} (l : List β) (f : β → ℝ) (d : β) :
    (l.map f).sum = ∑ i ∈ range l.length, f (l.getD i d) := by
  induction l with
  | nil => rfl
  | cons b l ih =>
    rw [List.map_cons, List.sum_cons, ih, List.length_cons, sum_range_succ', add_comm]
    rfl

namespace Vec

section Coordinates

variable {α : Type} [Scalar α]

theorem get_eq_getElem {v : Vec α} {i : ℕ} (h : i < v.coords.length) : v.get i = v.coords[i] := by
  simp [get, h]

theorem get_of_size_le {v : Vec α} {i : ℕ} (h : v.size ≤ i) : v.get i = 0 := by
  unfold size at h
  simp [get, h]

theorem ext_get {u v : Vec α} (hs : u.size = v.size) (h : ∀ i < u.size, u.get i = v.get i) :
    u = v := by
  obtain ⟨l⟩ := u
  obtain ⟨m⟩ := v
  simp only [size] at hs h
  congr 1
  refine List.ext_getElem hs fun i hi hi' => ?_
  rw [← get_eq_getElem (v := ⟨l⟩) hi, h i hi, get_eq_getElem (v := ⟨m⟩) hi']

@[simp] theorem get_nil (i : ℕ) : (⟨[]⟩ : Vec α).get i = 0 := by simp [get]

@[simp] theorem get_cons_zero (a : α) (l : List α) : (⟨a :: l⟩ : Vec α).get 0 = a := by simp [get]

@[simp] theorem get_cons_succ (a : α) (l : List α) (i : ℕ) :
    (⟨a :: l⟩ : Vec α).get (i + 1) = (⟨l⟩ : Vec α).get i := by simp [get]

theorem get_map_of_lt {f : α → α} {v : Vec α} {i : ℕ} (h : i < v.size) :
    (v.map f).get i = f (v.get i) := by
  have hi : i < (v.map f).coords.length := by simpa [map, size] using h
  rw [get_eq_getElem hi, get_eq_getElem h]
  exact List.getElem_map f

theorem get_zipWith_of_lt {f : α → α → α} {u v : Vec α} {i : ℕ} (hu : i < u.size)
    (hv : i < v.size) : (zipWith f u v).get i = f (u.get i) (v.get i) := by
  have hi : i < (zipWith f u v).coords.length := by
    unfold size at hu hv
    simp only [zipWith, List.length_zipWith]
    omega
  rw [get_eq_getElem hi, get_eq_getElem hu, get_eq_getElem hv]
  exact List.getElem_zipWith

@[simp] theorem get_zero (n i : ℕ) : (zero n : Vec α).get i = 0 := by
  by_cases h : i < n
  · rw [get_eq_getElem (by simpa [zero] using h)]
    simp [zero]
  · exact get_of_size_le (by simpa using h)

theorem get_slice (v : Vec α) (start len i : ℕ) :
    (v.slice start len).get i = if i < len then v.get (start + i) else 0 := by
  split_ifs with h
  · simp [slice, get, List.getD_eq_getElem?_getD, h]
  · exact get_of_size_le (by rw [size_slice]; omega)

theorem get_append (u v : Vec α) (j : ℕ) :
    (u ++ v).get j = if j < u.size then u.get j else v.get (j - u.size) := by
  change (u.coords ++ v.coords).getD j 0 = _
  split_ifs with h
  · exact List.getD_append _ _ _ _ h
  · exact List.getD_append_right _ _ _ _ (not_lt.mp h)

theorem getD_map_singleton {v : Vec α} {i : ℕ} (h : i < v.size) :
    (v.coords.map fun a => (⟨[a]⟩ : Vec α)).getD i ⟨[]⟩ = ⟨[v.get i]⟩ := by
  unfold size at h
  rw [List.getD_eq_getElem _ _ (by rwa [List.length_map]), List.getElem_map, get_eq_getElem h]

theorem get_fit (v : Vec α) {n i : ℕ} (h : i < n) : (v.fit n).get i = v.get i := by
  change (v.coords.take n ++ List.replicate (n - v.size) 0).getD i 0 = v.coords.getD i 0
  by_cases hi : i < v.coords.length
  · rw [List.getD_append _ _ _ _ (by rw [List.length_take]; omega), List.getD_eq_getElem?_getD,
      List.getElem?_take, if_pos h, ← List.getD_eq_getElem?_getD]
  · rw [List.getD_append_right _ _ _ _ (by rw [List.length_take]; omega),
      List.getD_replicate _ (by rw [List.length_take, size]; omega),
      List.getD_eq_default _ _ (not_lt.mp hi)]

end Coordinates

/-! ### Arithmetic by coordinates -/

theorem get_map (f : ℝ → ℝ) (hf : f 0 = 0) (v : Vec ℝ) (i : ℕ) : (v.map f).get i = f (v.get i) := by
  by_cases h : i < v.size
  · exact get_map_of_lt h
  · rw [get_of_size_le (by simpa using h), get_of_size_le (not_lt.mp h)]
    exact hf.symm

theorem get_scale (v : Vec ℝ) (c : ℝ) (i : ℕ) : (v.scale c).get i = v.get i * c :=
  get_map _ (zero_mul c) v i

theorem get_unscale (v : Vec ℝ) (c : ℝ) (i : ℕ) : (v.unscale c).get i = v.get i / c :=
  get_map _ (zero_div c) v i

theorem get_zipWith (f : ℝ → ℝ → ℝ) (hf : f 0 0 = 0) {u v : Vec ℝ} (h : u.size = v.size) (i : ℕ) :
    (zipWith f u v).get i = f (u.get i) (v.get i) := by
  by_cases hi : i < u.size
  · exact get_zipWith_of_lt hi (by omega)
  · rw [get_of_size_le (by rw [size_zipWith]; omega), get_of_size_le (not_lt.mp hi),
      get_of_size_le (v := v) (by omega)]
    exact hf.symm

theorem get_neg (v : Vec ℝ) (i : ℕ) : (-v).get i = -v.get i := get_map (- ·) neg_zero v i

theorem get_add {u v : Vec ℝ} (h : u.size = v.size) (i : ℕ) : (u + v).get i = u.get i + v.get i :=
  get_zipWith _ (add_zero 0) h i

theorem get_sub {u v : Vec ℝ} (h : u.size = v.size) (i : ℕ) : (u - v).get i = u.get i - v.get i :=
  get_zipWith _ (sub_zero 0) h i

theorem add_zero_of_size (v : Vec ℝ) : v + zero v.size = v := by
  refine ext_get ?_ fun i _ => ?_
  · rw [size_add, size_zero, min_self]
  · rw [get_add (size_zero _).symm, get_zero, add_zero]

section Differences
variable {u v : Vec ℝ} (h : u.size = v.size)
include h

theorem neg_add_add : -u + (u + v) = v := by
  have hsum : (-u).size = (u + v).size := by rw [size_neg, size_add, h, min_self]
  refine ext_get (by rw [size_add, ← hsum, min_self, size_neg, h]) fun i _ => ?_
  rw [get_add hsum, get_neg, get_add h, neg_add_cancel_left]

theorem add_neg_add : u + (-u + v) = v := by
  have hdifference : u.size = (-u + v).size := by rw [size_add, size_neg, h, min_self]
  refine ext_get (by rw [size_add, ← hdifference, min_self, h]) fun i _ => ?_
  rw [get_add hdifference, get_add ((size_neg u).trans h), get_neg, add_neg_cancel_left]

end Differences

theorem get_axpy (c : ℝ) {x y : Vec ℝ} (h : x.size = y.size) (i : ℕ) :
    (axpy c x y).get i = c * x.get i + y.get i :=
  get_zipWith (fun x y => c * x + y) (by simp) h i

@[simp] theorem size_axpy (c : ℝ) (x y : Vec ℝ) : (axpy c x y).size = min x.size y.size :=
  size_zipWith _ x y

/-! ### Inner products -/

theorem sum_zipWith_mul : ∀ (l m : List ℝ) (n : ℕ), min l.length m.length ≤ n →
    (List.zipWith (· * ·) l m).sum = ∑ i ∈ range n, l.getD i 0 * m.getD i 0
  | [], m, n, _ => by simp
  | a :: l, [], n, _ => by simp
  | a :: l, b :: m, 0, h => by simp at h
  | a :: l, b :: m, n + 1, h => by
    have h' : min l.length m.length ≤ n := by
      simp only [List.length_cons] at h
      omega
    rw [List.zipWith_cons_cons, List.sum_cons, sum_zipWith_mul l m n h', sum_range_succ']
    simp [add_comm]

/-- **The inner product is the sum of the products of the coordinates.** -/
theorem dot_eq_sum (u v : Vec ℝ) {n : ℕ} (h : min u.size v.size ≤ n) :
    u.dot v = ∑ i ∈ range n, u.get i * v.get i := by
  unfold dot
  rw [Scalar.strandSum_real]
  refine Eq.trans ?_ (sum_zipWith_mul u.coords v.coords n h)
  change (0 : ℝ) + 0 + 0 + 0 + 0 + 0 + 0 + 0 + _ = _
  simp only [zero_add]

@[simp] theorem dot_nil (u : Vec ℝ) : u.dot ⟨[]⟩ = 0 := by
  rw [dot_eq_sum u _ (n := 0) (Nat.min_le_right _ _), range_zero, sum_empty]

theorem dot_comm (u v : Vec ℝ) : u.dot v = v.dot u := by
  rw [dot_eq_sum u v le_rfl, dot_eq_sum v u (n := min u.size v.size) (min_comm _ _).le]
  exact sum_congr rfl fun i _ => mul_comm _ _

theorem apply_eq_sum (u v : Vec ℝ) {n : ℕ} (h : min u.size v.size ≤ n) :
    u.apply v = ∑ i ∈ range n, u.get i * v.get i := by
  unfold apply
  rw [Scalar.total_real]
  exact sum_zipWith_mul u.coords v.coords n h

theorem normSq_eq_sum (v : Vec ℝ) {n : ℕ} (h : v.size ≤ n) :
    v.normSq = ∑ i ∈ range n, v.get i ^ 2 := by
  unfold normSq
  rw [dot_eq_sum v v (n := n) (by omega)]
  exact sum_congr rfl fun i _ => (sq _).symm

theorem normSq_nonneg (v : Vec ℝ) : 0 ≤ v.normSq := by
  rw [normSq_eq_sum v le_rfl]
  exact sum_nonneg fun i _ => sq_nonneg _

@[simp] theorem apply_nil (u : Vec ℝ) : u.apply ⟨[]⟩ = 0 := by
  simp [apply, Scalar.total_real]

@[simp] theorem nil_apply (v : Vec ℝ) : (⟨[]⟩ : Vec ℝ).apply v = 0 := by
  simp [apply, Scalar.total_real]

theorem cons_apply_cons (a b : ℝ) (l m : List ℝ) :
    (⟨a :: l⟩ : Vec ℝ).apply ⟨b :: m⟩ = a * b + (⟨l⟩ : Vec ℝ).apply ⟨m⟩ := by
  simp only [apply, Scalar.total_real, List.zipWith_cons_cons, List.sum_cons]

theorem append_apply_append {u v x y : Vec ℝ} (h : u.size = x.size) :
    (u ++ v).apply (x ++ y) = u.apply x + v.apply y := by
  change Scalar.total (List.zipWith (· * ·) (u.coords ++ v.coords) (x.coords ++ y.coords)) = _
  rw [Scalar.total_real, List.zipWith_append h, List.sum_append]
  simp only [apply, Scalar.total_real]

theorem normSq_eq_sum_coords (v : Vec ℝ) : v.normSq = (v.coords.map fun a => a ^ 2).sum := by
  rw [normSq_eq_sum v le_rfl, sum_map_eq_sum_range _ _ 0]
  rfl

end Vec

end Smoothing
