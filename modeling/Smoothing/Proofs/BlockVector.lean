import Mathlib
import Smoothing.BlockVector
import Smoothing.Proofs.Vec

/-!
# Block vectors by coordinates

A block vector is a point: it has a coordinate for every key and every index, zero where it has none
(`BlockVector.coord`). Two block vectors with blocks of the same lengths and the same coordinates
are equal (`ext_coord`).

Sums over the entries of a map are sums over the set of its keys (`KeyMap.sum_entries`).
-/

open Finset

namespace Smoothing

namespace KeyMap

variable {β : Type}

theorem nodup_keys (m : KeyMap β) : m.keys.Nodup := m.sorted_keys.imp Key.ne_of_lt

theorem keys_eq_of_mem_iff {β γ : Type} {m : KeyMap β} {n : KeyMap γ}
    (h : ∀ k, k ∈ m.keys ↔ k ∈ n.keys) : m.keys = n.keys := by
  have hp : m.keys.Perm n.keys := (List.perm_ext_iff_of_nodup m.nodup_keys n.nodup_keys).mpr h
  exact hp.eq_of_pairwise (fun a b _ _ hab hba => absurd hba (Key.lt_asymm hab)) m.sorted_keys
    n.sorted_keys

theorem mem_keys_iff_exists {m : KeyMap β} {k : Key} : k ∈ m.keys ↔ ∃ v, m.get? k = some v := by
  rw [mem_keys, Option.isSome_iff_exists]

theorem get?_eq_none_iff {m : KeyMap β} {k : Key} : m.get? k = none ↔ k ∉ m.keys := by
  rw [mem_keys, Option.isSome_iff_ne_none, not_not]

theorem find?_eq_none_iff {k : Key} {es : List (Key × β)} :
    find? k es = none ↔ k ∉ es.map (·.1) := by
  induction es with
  | nil => simp [find?]
  | cons e es ih =>
    rw [find?, List.map_cons, List.mem_cons, not_or, ← ih]
    split_ifs with h
    · simp [h]
    · exact (and_iff_right fun he => h he.symm).symm

theorem mem_keys_insert {m : KeyMap β} {k j : Key} {v : β} :
    j ∈ (m.insert k v).keys ↔ j = k ∨ j ∈ m.keys := by
  rw [mem_keys, mem_keys, get?_insert]
  split_ifs with h <;> simp [h]

theorem mem_keys_setOf {ks : List Key} {k : Key} : k ∈ (setOf ks).keys ↔ k ∈ ks := by
  have haux : ∀ (ks : List Key) (s : KeySet), k ∈ (ks.foldl add s).keys ↔ k ∈ ks ∨ k ∈ s.keys := by
    intro ks
    induction ks with
    | nil => simp
    | cons j ks ih =>
      intro s
      rw [List.foldl_cons, ih, add, mem_keys_insert, List.mem_cons]
      tauto
  rw [setOf, haux]
  simp [empty, keys]

theorem sum_entries (m : KeyMap β) (f : Key → β → ℝ) (g : Key → ℝ)
    (h : ∀ k v, m.get? k = some v → f k v = g k) :
    (m.entries.map fun e => f e.1 e.2).sum = ∑ k ∈ m.keys.toFinset, g k := by
  rw [List.sum_toFinset g m.nodup_keys, keys, List.map_map]
  congr 1
  exact List.map_congr_left fun e he => h e.1 e.2 (get?_eq_some_iff.mpr he)

end KeyMap

namespace BlockVector

section Widths

variable {α : Type}

/-- The lengths of the blocks. -/
def widths (x : BlockVector α) : KeyMap ℕ := x.map fun _ v => v.size

@[simp] theorem get?_widths (x : BlockVector α) (k : Key) :
    x.widths.get? k = (x.get? k).map Vec.size := KeyMap.get?_map _ _ _

@[simp] theorem keys_widths (x : BlockVector α) : x.widths.keys = x.keys := KeyMap.keys_map _ _

theorem widths_insert (x : BlockVector α) (k : Key) (v : Vec α) :
    widths (x.insert k v) = x.widths.insert k v.size := by
  refine KeyMap.ext fun j => ?_
  rw [get?_widths, KeyMap.get?_insert, KeyMap.get?_insert, get?_widths]
  split_ifs <;> rfl

theorem exists_of_get?_widths {x : BlockVector α} {k : Key} {w : ℕ} (h : x.widths.get? k = some w) :
    ∃ v, x.get? k = some v ∧ v.size = w := by
  rw [get?_widths] at h
  exact Option.map_eq_some_iff.mp h

theorem get?_widths_of_get? {x : BlockVector α} {k : Key} {v : Vec α} (h : x.get? k = some v) :
    x.widths.get? k = some v.size := by rw [get?_widths, h, Option.map_some]

end Widths

/-- The coordinate of a block vector at a key and an index, zero where there is none. -/
noncomputable def coord (x : BlockVector ℝ) (k : Key) (i : ℕ) : ℝ := ((x.get? k).getD ⟨[]⟩).get i

theorem coord_of_get? {x : BlockVector ℝ} {k : Key} {v : Vec ℝ} (h : x.get? k = some v) (i : ℕ) :
    x.coord k i = v.get i := by rw [coord, h, Option.getD_some]

theorem coord_of_get?_eq_none {x : BlockVector ℝ} {k : Key} (h : x.get? k = none) (i : ℕ) :
    x.coord k i = 0 := by rw [coord, h, Option.getD_none, Vec.get_nil]

@[simp] theorem coord_empty (k : Key) (i : ℕ) : coord KeyMap.empty k i = 0 :=
  coord_of_get?_eq_none rfl i

theorem coord_insert (x : BlockVector ℝ) (k : Key) (v : Vec ℝ) (j : Key) (i : ℕ) :
    coord (x.insert k v) j i = if j = k then v.get i else x.coord j i := by
  rw [coord, KeyMap.get?_insert]
  split_ifs <;> rfl

/-- **Block vectors with blocks of the same lengths and the same coordinates are equal.** -/
theorem ext_coord {x y : BlockVector ℝ} (hw : x.widths = y.widths)
    (hc : ∀ k w, x.widths.get? k = some w → ∀ i < w, x.coord k i = y.coord k i) : x = y := by
  refine KeyMap.ext fun k => ?_
  rcases hx : x.get? k with _ | u
  · have hyk : y.widths.get? k = none := by rw [← hw, get?_widths, hx, Option.map_none]
    rw [get?_widths, Option.map_eq_none_iff] at hyk
    exact hyk.symm
  · have hxk := get?_widths_of_get? hx
    obtain ⟨v, hv, hs⟩ := exists_of_get?_widths (hw ▸ hxk)
    rw [hv]
    congr 1
    refine Vec.ext_get hs.symm fun i hi => ?_
    rw [← coord_of_get? hx, ← coord_of_get? hv]
    exact hc k _ hxk i hi

theorem get_blockOr (x : BlockVector ℝ) (k : Key) (n i : ℕ) :
    (x.blockOr k n).get i = x.coord k i := by
  unfold blockOr coord
  cases x.get? k <;> simp

theorem dot_eq_sum (x y : BlockVector ℝ) :
    x.dot y = ∑ k ∈ x.keys.toFinset, ((x.get? k).getD ⟨[]⟩).dot ((y.get? k).getD ⟨[]⟩) := by
  have hsum : ∀ es : List (Key × Vec ℝ), (es.filterMap fun e => (y.get? e.1).map e.2.dot).sum =
      (es.map fun e => e.2.dot ((y.get? e.1).getD ⟨[]⟩)).sum := by
    intro es
    induction es with
    | nil => rfl
    | cons e es ih => cases h : y.get? e.1 <;> simp [h, ih]
  rw [dot, Scalar.sum_real, hsum]
  exact KeyMap.sum_entries x (fun k v => v.dot ((y.get? k).getD ⟨[]⟩)) _ fun k v hv => by
    rw [hv, Option.getD_some]

theorem dot_comm (x y : BlockVector ℝ) : x.dot y = y.dot x := by
  have hcommon : ∀ x y : BlockVector ℝ, x.dot y =
      ∑ k ∈ x.keys.toFinset ∩ y.keys.toFinset,
      ((x.get? k).getD ⟨[]⟩).dot ((y.get? k).getD ⟨[]⟩) := by
    intro x y
    rw [dot_eq_sum]
    refine (sum_subset inter_subset_left fun k hkx hk => ?_).symm
    have hky : y.get? k = none := KeyMap.get?_eq_none_iff.mpr fun hky =>
      hk (mem_inter.mpr ⟨hkx, List.mem_toFinset.mpr hky⟩)
    rw [hky, Option.getD_none, Vec.dot_nil]
  rw [hcommon x y, hcommon y x, inter_comm]
  exact sum_congr rfl fun k _ => Vec.dot_comm _ _

theorem normSq_eq_dot {α : Type} [Scalar α] (x : BlockVector α) : x.normSq = x.dot x := by
  have hself : (x.entries.filterMap fun e => (x.get? e.1).map e.2.dot) = x.entries.map fun e =>
      e.2.normSq := by
    rw [← List.filterMap_eq_map]
    refine List.filterMap_congr fun e he => ?_
    rw [KeyMap.get?_eq_some_iff.mpr he]
    rfl
  rw [normSq, dot, hself, KeyMap.values, List.map_map]
  rfl

theorem fits_iff {α : Type} {x y : BlockVector α} :
    x.fits y = true ↔ ∀ k u v, x.get? k = some u → y.get? k = some v → u.size = v.size := by
  unfold fits
  rw [List.all_eq_true]
  constructor
  · intro h k u v hu hv
    have hk := h (k, u) (KeyMap.get?_eq_some_iff.mp hu)
    simpa [hv] using hk
  · intro h e he
    cases hv : y.get? e.1 with
    | none => rfl
    | some v => simpa using h e.1 e.2 v (KeyMap.get?_eq_some_iff.mpr he) hv

end BlockVector

/-! ### Widths of variables -/

/-- All blocks of a vector have the widths of their variables. -/
def Within {α : Type} (dims : KeyMap ℕ) (x : BlockVector α) : Prop :=
  ∀ k v, x.get? k = some v → dims.get? k = some v.size

theorem within_of_widths {α : Type} {dims : KeyMap ℕ} {x : BlockVector α} (h : x.widths = dims) :
    Within dims x := fun k v hv => by rw [← h, BlockVector.get?_widths_of_get? hv]

theorem Within.insert {α : Type} {dims : KeyMap ℕ} {x : BlockVector α} (h : Within dims x) {k : Key}
    {v : Vec α} (hv : dims.get? k = some v.size) : Within dims (x.insert k v) := by
  intro j u hu
  rw [KeyMap.get?_insert] at hu
  split_ifs at hu with hj
  · cases hu
    rw [hj, hv]
  · exact h j u hu

theorem Within.erase {α : Type} {dims : KeyMap ℕ} {x : BlockVector α}
    (h : Within dims x) (k : Key) : Within dims (x.erase k) := by
  intro j u hu
  rw [KeyMap.get?_erase] at hu
  split_ifs at hu
  exact h j u hu

/-! ### Inner products -/

/-- The inner product of two points over some keys. -/
noncomputable def pairing (dims : KeyMap ℕ) (ks : Finset Key) (p q : Key → ℕ → ℝ) : ℝ :=
  ∑ k ∈ ks, ∑ i ∈ range ((dims.get? k).getD 0), p k i * q k i

theorem pairing_congr {dims : KeyMap ℕ} {ks : Finset Key} {p p' q q' : Key → ℕ → ℝ}
    (hp : ∀ k ∈ ks, ∀ w, dims.get? k = some w → ∀ i < w, p k i = p' k i)
    (hq : ∀ k ∈ ks, ∀ w, dims.get? k = some w → ∀ i < w, q k i = q' k i) :
    pairing dims ks p q = pairing dims ks p' q' := by
  refine sum_congr rfl fun k hk => ?_
  rcases hd : dims.get? k with _ | w
  · simp
  · refine sum_congr rfl fun i hi => ?_
    rw [hp k hk w hd i (mem_range.mp hi), hq k hk w hd i (mem_range.mp hi)]

theorem pairing_insert {dims : KeyMap ℕ} {ks : Finset Key} {k : Key} (hk : k ∉ ks) {w : ℕ}
    (hd : dims.get? k = some w) (p q : Key → ℕ → ℝ) :
    pairing dims (insert k ks) p q = ∑ i ∈ range w, p k i * q k i + pairing dims ks p q := by
  rw [pairing, sum_insert hk, hd]
  rfl

theorem pairing_update {dims : KeyMap ℕ} {ks : Finset Key} {k : Key} (hk : k ∈ ks) {w : ℕ}
    (hd : dims.get? k = some w) {p p' : Key → ℕ → ℝ} (h : ∀ j ∈ ks, j ≠ k → ∀ i, p' j i = p j i)
    (q : Key → ℕ → ℝ) :
    pairing dims ks p' q = pairing dims ks p q + ∑ i ∈ range w, (p' k i - p k i) * q k i := by
  have hrest : pairing dims (ks.erase k) p' q = pairing dims (ks.erase k) p q :=
    pairing_congr (fun j hj _ _ i _ => h j (mem_of_mem_erase hj) (ne_of_mem_erase hj) i)
      fun _ _ _ _ _ _ => rfl
  conv_lhs => rw [← insert_erase hk]
  conv_rhs => rw [← insert_erase hk]
  rw [pairing_insert (notMem_erase k ks) hd, pairing_insert (notMem_erase k ks) hd, hrest]
  simp only [sub_mul, sum_sub_distrib]
  ring

/-- **The inner product of blocks within widths** with any vector is over all keys that have a
width. -/
theorem BlockVector.dot_eq_pairing {dims : KeyMap ℕ} {x : BlockVector ℝ} (hx : Within dims x)
    (y : BlockVector ℝ) : x.dot y = pairing dims dims.keys.toFinset x.coord y.coord := by
  have hsub : x.keys.toFinset ⊆ dims.keys.toFinset := by
    intro k hk
    obtain ⟨v, hv⟩ := KeyMap.mem_keys_iff_exists.mp (List.mem_toFinset.mp hk)
    exact List.mem_toFinset.mpr (KeyMap.mem_keys_iff_exists.mpr ⟨_, hx k v hv⟩)
  rw [dot_eq_sum, pairing, ← sum_subset hsub]
  · refine sum_congr rfl fun k hk => ?_
    obtain ⟨v, hv⟩ := KeyMap.mem_keys_iff_exists.mp (List.mem_toFinset.mp hk)
    rw [hx k v hv, Vec.dot_eq_sum _ _ (n := v.size) (by rw [hv]; exact min_le_left _ _)]
    rfl
  · intro k _ hk
    have hnone : x.get? k = none :=
      KeyMap.get?_eq_none_iff.mpr fun hmem => hk (List.mem_toFinset.mpr hmem)
    exact sum_eq_zero fun i _ => by rw [coord_of_get?_eq_none hnone, zero_mul]

end Smoothing
