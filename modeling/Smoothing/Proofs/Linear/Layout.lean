import Mathlib
import Smoothing.Linear.Layout
import Smoothing.Proofs.Linear.Factor

/-!
# Points in a layout

A point is laid out as one list of coordinates, the variables in the order of the layout
(`Layout.lay`). The ranges of the variables follow each other, and every column is in exactly one
(`Layout.existsUnique_range`). A row of a factor in the layout has at this list the value of the row
at the point (`apply_plainRows`, `apply_augmentedRows`), for every layout that has a place for each
of the factor's blocks (`InLayout`).
-/

open Finset

namespace Smoothing

namespace KeyMap

variable {β : Type}

theorem find?_eq_some_of_nodup {k : Key} {v : β} {es : List (Key × β)} (hn : (es.map (·.1)).Nodup)
    (h : (k, v) ∈ es) : find? k es = some v := by
  induction es with
  | nil => simp at h
  | cons e es ih =>
    rw [List.map_cons, List.nodup_cons] at hn
    rw [find?]
    rcases List.mem_cons.mp h with rfl | h
    · rw [if_pos rfl]
    · have hne : e.1 ≠ k := by
        rintro rfl
        exact hn.1 (List.mem_map.mpr ⟨_, h, rfl⟩)
      rw [if_neg hne]
      exact ih hn.2 h

end KeyMap

namespace Layout

/-- The coordinates of a point, one variable after the other. -/
def lay (l : Layout) (p : Key → ℕ → ℝ) : List ℝ := l.flatMap fun e => (List.range e.2).map (p e.1)

theorem lay_cons (e : Key × ℕ) (l : Layout) (p : Key → ℕ → ℝ) :
    lay (e :: l) p = (List.range e.2).map (p e.1) ++ lay l p := List.flatMap_cons

theorem width_cons (e : Key × ℕ) (l : Layout) : width (e :: l) = e.2 + width l := rfl

@[simp] theorem length_lay (l : Layout) (p : Key → ℕ → ℝ) : (lay l p).length = width l := by
  induction l with
  | nil => rfl
  | cons e l ih =>
    rw [lay_cons, List.length_append, ih, width_cons, List.length_map, List.length_range]

theorem lay_congr {l : Layout} {p q : Key → ℕ → ℝ} (h : ∀ e ∈ l, ∀ i < e.2, p e.1 i = q e.1 i) :
    lay l p = lay l q := by
  unfold lay
  refine List.flatMap_congr fun e he => List.map_congr_left fun i hi => ?_
  exact h e he i (List.mem_range.mp hi)

/-! ### Ranges of columns -/

/-- Ranges of columns that follow each other from one column to another. -/
def Consecutive : ℕ → List (Key × (ℕ × ℕ)) → ℕ → Prop
  | start, [], stop => start = stop
  | start, e :: es, stop => e.2.1 = start ∧ Consecutive (start + e.2.2) es stop

theorem ranges_cons (k : Key) (w : ℕ) (l : Layout) (start : ℕ) :
    ranges start ((k, w) :: l) = (k, (start, w)) :: ranges (start + w) l := rfl

theorem map_ranges (l : Layout) (start : ℕ) : (l.ranges start).map (fun e => (e.1, e.2.2)) = l := by
  induction l generalizing start with
  | nil => rfl
  | cons e l ih => rw [ranges_cons, List.map_cons, ih]

theorem consecutive_ranges (l : Layout) (start : ℕ) :
    Consecutive start (l.ranges start) (start + width l) := by
  induction l generalizing start with
  | nil => rfl
  | cons e l ih =>
    refine ⟨rfl, ?_⟩
    have h := ih (start + e.2)
    rwa [Nat.add_assoc] at h

theorem bounds_of_mem_ranges {l : Layout} {start : ℕ} {e : Key × (ℕ × ℕ)}
    (he : e ∈ l.ranges start) : start ≤ e.2.1 ∧ e.2.1 + e.2.2 ≤ start + width l := by
  induction l generalizing start with
  | nil => exact absurd he List.not_mem_nil
  | cons a l ih =>
    rw [width_cons]
    rcases List.mem_cons.mp he with rfl | he
    · exact ⟨le_rfl, by change start + a.2 ≤ _; omega⟩
    · have := ih he
      omega

theorem pairwise_ranges (l : Layout) (start : ℕ) :
    (l.ranges start).Pairwise fun a b => a.2.1 + a.2.2 ≤ b.2.1 := by
  induction l generalizing start with
  | nil => exact List.Pairwise.nil
  | cons e l ih => exact List.pairwise_cons.mpr ⟨fun b hb => (bounds_of_mem_ranges hb).1, ih _⟩

/-- **Every column is in exactly one range.** -/
theorem existsUnique_range {l : Layout} {start j : ℕ} (hj : start ≤ j) (hw : j < start + width l) :
    ∃! e, e ∈ l.ranges start ∧ e.2.1 ≤ j ∧ j < e.2.1 + e.2.2 := by
  induction l generalizing start with
  | nil => exact absurd hw (by change ¬ j < start + 0; omega)
  | cons a l ih =>
    obtain ⟨k, w⟩ := a
    by_cases hlt : j < start + w
    · refine ⟨(k, (start, w)), ⟨List.mem_cons_self, hj, hlt⟩, ?_⟩
      rintro e ⟨he, hle, -⟩
      rcases List.mem_cons.mp he with rfl | he
      · rfl
      · have := (bounds_of_mem_ranges he).1
        omega
    · rw [width_cons, ← Nat.add_assoc] at hw
      obtain ⟨e, ⟨he, hle⟩, huniq⟩ := ih (not_lt.mp hlt) hw
      refine ⟨e, ⟨List.mem_cons_of_mem _ he, hle⟩, ?_⟩
      rintro e' ⟨he', hle', hlt'⟩
      rcases List.mem_cons.mp he' with rfl | he'
      · exact absurd hlt' hlt
      · exact huniq e' ⟨he', hle', hlt'⟩

theorem eq_of_mem_ranges {l : Layout} {start j : ℕ} {a b : Key × (ℕ × ℕ)} (ha : a ∈ l.ranges start)
    (hb : b ∈ l.ranges start) (haj : a.2.1 ≤ j ∧ j < a.2.1 + a.2.2)
    (hbj : b.2.1 ≤ j ∧ j < b.2.1 + b.2.2) : a = b := by
  have hbounds := bounds_of_mem_ranges ha
  exact (existsUnique_range (by omega) (by omega)).unique ⟨ha, haj⟩ ⟨hb, hbj⟩

theorem exists_mem_ranges {l : Layout} (start : ℕ) {e : Key × ℕ} (he : e ∈ l) :
    ∃ a ∈ l.ranges start, a.1 = e.1 ∧ a.2.2 = e.2 := by
  rw [← map_ranges l start] at he
  obtain ⟨a, ha, rfl⟩ := List.mem_map.mp he
  exact ⟨a, ha, rfl, rfl⟩

theorem eq_of_mem_ranges_of_key {l : Layout} (hl : (l.map (·.1)).Nodup) {start : ℕ}
    {a b : Key × (ℕ × ℕ)} (ha : a ∈ l.ranges start) (hb : b ∈ l.ranges start) (hkey : a.1 = b.1) :
    a = b := by
  rw [← map_ranges l start, List.map_map] at hl
  exact List.inj_on_of_nodup_map hl ha hb hkey

theorem eq_getD_lay {l : Layout} {start : ℕ} {x : ℕ → ℝ} {p : Key → ℕ → ℝ}
    (h : ∀ e ∈ l.ranges start, ∀ i < e.2.2, x (e.2.1 + i) = p e.1 i) :
    ∀ j < width l, x (start + j) = (lay l p).getD j 0 := by
  induction l generalizing start with
  | nil => exact fun j hj => absurd hj (Nat.not_lt_zero j)
  | cons e l ih =>
    intro j hj
    have hlen : ((List.range e.2).map (p e.1)).length = e.2 := by simp
    rw [width_cons] at hj
    rw [lay_cons]
    by_cases hje : j < e.2
    · rw [List.getD_append _ _ _ _ (by rwa [hlen]), getD_map_range _ hje]
      exact h _ List.mem_cons_self j hje
    · obtain ⟨t, rfl⟩ := Nat.exists_eq_add_of_le (not_lt.mp hje)
      rw [List.getD_append_right _ _ _ _ (by rw [hlen]; omega), hlen, Nat.add_sub_cancel_left,
        ← ih (fun a ha => h a (List.mem_cons_of_mem _ ha)) t (by omega), Nat.add_assoc]

end Layout

namespace GaussianFactor

/-- The layout has a place for each block of a factor. -/
def InLayout {α : Type} (f : GaussianFactor α) (l : Layout) : Prop :=
  ∀ t ∈ f.terms, (t.1, t.2.cols) ∈ l

/-- The value of row `i` of the block of a key at a point, zero if there is none. -/
noncomputable def part (f : GaussianFactor ℝ) (p : Key → ℕ → ℝ) (i : ℕ) (k : Key) : ℝ :=
  match f.blockFor? k with
  | some m => ∑ j ∈ range m.cols, m.get i j * p k j
  | none => 0

theorem blockFor?_of_mem {α : Type} {f : GaussianFactor α} {t : Key × Mat α} (h : t ∈ f.terms) :
    f.blockFor? t.1 = some t.2 := KeyMap.find?_eq_some_of_nodup f.nodup h

theorem mem_of_blockFor? {α : Type} {f : GaussianFactor α} {k : Key} {m : Mat α}
    (h : f.blockFor? k = some m) : (k, m) ∈ f.terms := KeyMap.mem_of_find?_eq_some h

theorem cols_of_blockFor? {α : Type} {f : GaussianFactor α} {l : Layout} (hf : f.InLayout l)
    (hl : (l.map (·.1)).Nodup) {e : Key × ℕ} (he : e ∈ l) {m : Mat α}
    (hm : f.blockFor? e.1 = some m) : m.cols = e.2 :=
  congrArg Prod.snd (List.inj_on_of_nodup_map hl (hf _ (mem_of_blockFor? hm)) he rfl)

/-! ### Rows by entries -/

section Entries
variable {α : Type} [Scalar α]

/-- The entry of row `i` in column `j` of the block of a key, zero if there is none. -/
def entry (f : GaussianFactor α) (k : Key) (i j : ℕ) : α :=
  match f.blockFor? k with
  | some m => m.get i j
  | none => 0

theorem length_blockRows (f : GaussianFactor α) (k : Key) (w : ℕ) :
    (f.blockRows k w).length = f.height := by
  unfold blockRows
  split
  · next m hm => exact f.height_eq _ (mem_of_blockFor? hm)
  · exact List.length_replicate

theorem rowsIn_cons (f : GaussianFactor α) (e : Key × ℕ) (l : Layout) (last : List (Vec α)) :
    f.rowsIn (e :: l) last = List.zipWith Vec.append (f.blockRows e.1 e.2) (f.rowsIn l last) := rfl

theorem length_rowsIn (f : GaussianFactor α) (l : Layout) {last : List (Vec α)}
    (hlast : last.length = f.height) : (f.rowsIn l last).length = f.height := by
  induction l with
  | nil => exact hlast
  | cons e l ih => rw [rowsIn_cons, List.length_zipWith, ih, length_blockRows, min_self]

theorem length_augmentedRows (f : GaussianFactor α) (l : Layout) :
    (f.augmentedRows l).length = f.height :=
  length_rowsIn f l (List.length_map _)

theorem getD_rowsIn_cons {f : GaussianFactor α} {last : List (Vec α)}
    (hlast : last.length = f.height) {i : ℕ} (hi : i < f.height) (e : Key × ℕ) (l : Layout) :
    (f.rowsIn (e :: l) last).getD i ⟨[]⟩ = (f.blockRows e.1 e.2).getD i ⟨[]⟩ ++
      (f.rowsIn l last).getD i ⟨[]⟩ := by
  have h1 : i < (f.blockRows e.1 e.2).length := by rwa [length_blockRows]
  have h2 : i < (f.rowsIn l last).length := by rwa [length_rowsIn f l hlast]
  have h3 : i < (f.rowsIn (e :: l) last).length := by rwa [length_rowsIn f _ hlast]
  rw [List.getD_eq_getElem _ _ h1, List.getD_eq_getElem _ _ h2, List.getD_eq_getElem _ _ h3]
  simp only [rowsIn_cons, List.getElem_zipWith]
  rfl

theorem get_blockRows {f : GaussianFactor α} {i : ℕ} (hi : i < f.height) (k : Key) (w j : ℕ) :
    ((f.blockRows k w).getD i ⟨[]⟩).get j = f.entry k i j := by
  unfold blockRows entry
  cases f.blockFor? k with
  | some m => rfl
  | none => exact (congrArg (Vec.get · j) (List.getD_replicate _ hi)).trans (Vec.get_zero w j)

variable {f : GaussianFactor α} {l : Layout} (hf : f.InLayout l) (hl : (l.map (·.1)).Nodup)
include hf hl

theorem size_getD_blockRows {e : Key × ℕ} (he : e ∈ l) {i : ℕ} (hi : i < f.height) :
    ((f.blockRows e.1 e.2).getD i ⟨[]⟩).size = e.2 := by
  unfold blockRows
  split
  · next m hm =>
    rw [Mat.size_getD_rows (by rw [f.height_eq _ (mem_of_blockFor? hm)]; exact hi),
      cols_of_blockFor? hf hl he hm]
  · rw [List.getD_replicate _ hi, Vec.size_zero]

variable {last : List (Vec α)} (hlast : last.length = f.height) {i : ℕ} (hi : i < f.height)
include hlast hi

/-- **In the range of a key a row has the entries of its block.** -/
theorem get_rowsIn_of_mem_ranges {l' : Layout} (hl' : ∀ e ∈ l', e ∈ l) {start : ℕ}
    {e : Key × (ℕ × ℕ)} (he : e ∈ l'.ranges start) {c j : ℕ} (hj : j < e.2.2)
    (hc : start + c = e.2.1 + j) : ((f.rowsIn l' last).getD i ⟨[]⟩).get c = f.entry e.1 i j := by
  induction l' generalizing start c with
  | nil => exact absurd he List.not_mem_nil
  | cons a l' ih =>
    have hsize := size_getD_blockRows hf hl (hl' a List.mem_cons_self) hi
    rw [getD_rowsIn_cons hlast hi, Vec.get_append, hsize]
    rcases List.mem_cons.mp he with rfl | he
    · -- the block of the first key
      obtain rfl : c = j := by simpa using hc
      rw [if_pos hj, get_blockRows hi]
    · have hle := (Layout.bounds_of_mem_ranges he).1
      rw [if_neg (by omega)]
      exact ih (fun e he => hl' e (List.mem_cons_of_mem _ he)) he (by omega)

theorem get_rowsIn_width_add {l' : Layout} (hl' : ∀ e ∈ l', e ∈ l) (j : ℕ) :
    ((f.rowsIn l' last).getD i ⟨[]⟩).get (Layout.width l' + j) = (last.getD i ⟨[]⟩).get j := by
  induction l' with
  | nil => rw [Layout.width, List.foldr_nil, Nat.zero_add]; rfl
  | cons a l' ih =>
    have hsize := size_getD_blockRows hf hl (hl' a List.mem_cons_self) hi
    rw [getD_rowsIn_cons hlast hi, Vec.get_append, hsize, Layout.width_cons, if_neg (by omega),
      Nat.add_assoc, Nat.add_sub_cancel_left]
    exact ih fun e he => hl' e (List.mem_cons_of_mem _ he)

omit hlast

theorem get_augmentedRows_of_mem_ranges {e : Key × (ℕ × ℕ)} (he : e ∈ l.ranges 0) {j : ℕ}
    (hj : j < e.2.2) : ((f.augmentedRows l).getD i ⟨[]⟩).get (e.2.1 + j) = f.entry e.1 i j :=
  get_rowsIn_of_mem_ranges hf hl (List.length_map _) hi (fun _ h => h) he hj (Nat.zero_add _)

theorem get_augmentedRows_width :
    ((f.augmentedRows l).getD i ⟨[]⟩).get (Layout.width l) = f.rhs.get i := by
  have h :=
    get_rowsIn_width_add hf hl (List.length_map (fun b => (⟨[b]⟩ : Vec α))) hi (fun _ h => h) 0
  rwa [Vec.getD_map_singleton hi, Vec.get_cons_zero] at h

end Entries

/-! ### Rows at a point -/

section Place
variable {f : GaussianFactor ℝ} {l : Layout} (hf : f.InLayout l) (hl : (l.map (·.1)).Nodup)
include hf hl

theorem sum_part (p : Key → ℕ → ℝ) (i : ℕ) : (l.map fun e => f.part p i e.1).sum = f.value p i := by
  have hpart : ∀ t ∈ f.terms, ∑ j ∈ range t.2.cols, t.2.get i j * p t.1 j = f.part p i t.1 :=
    fun t ht => by rw [part, blockFor?_of_mem ht]
  have hkeys : (f.terms.map (·.1)).toFinset ⊆ (l.map (·.1)).toFinset := by
    intro k hk
    obtain ⟨t, ht, rfl⟩ := List.mem_map.mp (List.mem_toFinset.mp hk)
    exact List.mem_toFinset.mpr (List.mem_map.mpr ⟨_, hf t ht, rfl⟩)
  calc (l.map fun e => f.part p i e.1).sum
      = ((l.map (·.1)).map (f.part p i)).sum := by rw [List.map_map]; rfl
    _ = ∑ k ∈ (l.map (·.1)).toFinset, f.part p i k := (List.sum_toFinset _ hl).symm
    _ = ∑ k ∈ (f.terms.map (·.1)).toFinset, f.part p i k := by
        refine (sum_subset hkeys fun k _ hk => ?_).symm
        rw [List.mem_toFinset] at hk
        rw [part, blockFor?, KeyMap.find?_eq_none_iff.mpr hk]
    _ = ((f.terms.map (·.1)).map (f.part p i)).sum := List.sum_toFinset _ f.nodup
    _ = f.value p i := by
        rw [List.map_map, value, rowValue]
        congr 1
        exact List.map_congr_left fun t ht => (hpart t ht).symm

theorem apply_getD_blockRows {e : Key × ℕ} (he : e ∈ l) (p : Key → ℕ → ℝ) {i : ℕ}
    (hi : i < f.height) :
    ((f.blockRows e.1 e.2).getD i ⟨[]⟩).apply ⟨(List.range e.2).map (p e.1)⟩ = f.part p i e.1 := by
  have hvalue : ((f.blockRows e.1 e.2).getD i ⟨[]⟩).apply ⟨(List.range e.2).map (p e.1)⟩ =
      ∑ j ∈ range e.2, f.entry e.1 i j * p e.1 j := by
    rw [Vec.apply_eq_sum _ _ (n := e.2) (by simp)]
    refine sum_congr rfl fun j hj => ?_
    rw [get_blockRows hi]
    congr 1
    exact getD_map_range _ (mem_range.mp hj)
  rw [hvalue]
  unfold entry part
  cases hm : f.blockFor? e.1 with
  | some m => simp only [cols_of_blockFor? hf hl he hm]
  | none => exact sum_eq_zero fun j _ => zero_mul _

/-- A row in a layout has the width of the layout and of what follows it, and its value at a point
that is laid out is the sum of the parts of its blocks and the value of what follows. -/
theorem rowsIn_spec {l' : Layout} (hl' : ∀ e ∈ l', e ∈ l) (p : Key → ℕ → ℝ) (last : List (Vec ℝ))
    (hlast : last.length = f.height) {i : ℕ} (hi : i < f.height) (tail : List ℝ) :
    ((f.rowsIn l' last).getD i ⟨[]⟩).size = Layout.width l' + (last.getD i ⟨[]⟩).size ∧
      ((f.rowsIn l' last).getD i ⟨[]⟩).apply ⟨Layout.lay l' p ++ tail⟩ =
        (l'.map fun e => f.part p i e.1).sum + (last.getD i ⟨[]⟩).apply ⟨tail⟩ := by
  induction l' with
  | nil => exact ⟨(Nat.zero_add _).symm, (zero_add _).symm⟩
  | cons e l' ih =>
    obtain ⟨ihs, ihv⟩ := ih fun e he => hl' e (List.mem_cons_of_mem _ he)
    have hs := size_getD_blockRows hf hl (hl' e List.mem_cons_self) hi
    have hv := apply_getD_blockRows hf hl (hl' e List.mem_cons_self) p hi
    have hrow := getD_rowsIn_cons hlast hi e l'
    have hlay : (⟨Layout.lay (e :: l') p ++ tail⟩ : Vec ℝ) =
        (⟨(List.range e.2).map (p e.1)⟩ : Vec ℝ) ++ (⟨Layout.lay l' p ++ tail⟩ : Vec ℝ) := by
      rw [Layout.lay_cons, List.append_assoc]
      rfl
    refine ⟨by rw [hrow, Vec.size_append, hs, ihs, Layout.width_cons, Nat.add_assoc], ?_⟩
    rw [hrow, hlay, Vec.append_apply_append (by rw [hs]; simp), hv, ihv, List.map_cons,
      List.sum_cons, add_assoc]

end Place

section Rows
variable {f : GaussianFactor ℝ} {l : Layout} (hf : f.InLayout l) (hl : (l.map (·.1)).Nodup)

theorem length_plainRows {α : Type} [Scalar α] (f : GaussianFactor α) (l : Layout) :
    (f.plainRows l).length = f.height :=
  length_rowsIn f l List.length_replicate

include hf hl

/-- **A row of a factor in a layout, at a point.** -/
theorem apply_plainRows (p : Key → ℕ → ℝ) {i : ℕ} (hi : i < f.height) :
    ((f.plainRows l).getD i ⟨[]⟩).apply ⟨Layout.lay l p⟩ = f.value p i := by
  have h := (rowsIn_spec hf hl (fun _ h => h) p (List.replicate f.height ⟨[]⟩)
    List.length_replicate hi []).2
  rwa [List.append_nil, Vec.apply_nil, add_zero, sum_part hf hl] at h

theorem size_plainRows : ∀ r ∈ f.plainRows l, r.size = Layout.width l := by
  intro r hr
  obtain ⟨i, hi, rfl⟩ := List.getElem_of_mem hr
  have hi' : i < f.height := by rwa [length_plainRows] at hi
  have h := (rowsIn_spec hf hl (fun _ h => h) 0 (List.replicate f.height ⟨[]⟩)
    List.length_replicate hi' []).1
  rw [← List.getD_eq_getElem _ ⟨[]⟩ hi]
  rwa [List.getD_replicate _ hi'] at h

theorem apply_augmentedRows (p : Key → ℕ → ℝ) {i : ℕ} (hi : i < f.height) :
    ((f.augmentedRows l).getD i ⟨[]⟩).apply ⟨Layout.lay l p ++ [-1]⟩ =
      f.value p i - f.rhs.get i := by
  have h := (rowsIn_spec hf hl (fun _ h => h) p (f.rhs.coords.map fun b => ⟨[b]⟩)
    (List.length_map _) hi [-1]).2
  rw [sum_part hf hl, Vec.getD_map_singleton hi, Vec.cons_apply_cons, Vec.apply_nil] at h
  refine h.trans ?_
  ring

theorem size_augmentedRows : ∀ r ∈ f.augmentedRows l, r.size = Layout.width l + 1 := by
  intro r hr
  obtain ⟨i, hi, rfl⟩ := List.getElem_of_mem hr
  have hi' : i < f.height := by rwa [length_augmentedRows] at hi
  have h := (rowsIn_spec hf hl (fun _ h => h) 0 (f.rhs.coords.map fun b => ⟨[b]⟩)
    (List.length_map _) hi' [-1]).1
  rw [← List.getD_eq_getElem _ ⟨[]⟩ hi]
  rwa [Vec.getD_map_singleton hi'] at h

theorem rowsSq_augmentedRows (p : Key → ℕ → ℝ) :
    rowsSq (f.augmentedRows l) ⟨Layout.lay l p ++ [-1]⟩ = f.sq p := by
  rw [rowsSq_eq_sum, length_augmentedRows]
  exact sum_congr rfl fun i hi => by rw [apply_augmentedRows hf hl p (mem_range.mp hi)]

end Rows

end GaussianFactor

end Smoothing
