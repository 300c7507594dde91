import Mathlib
import Smoothing.Linear.Triplets
import Smoothing.Proofs.Linear.Layout
import Smoothing.Proofs.Sparse.System

/-!
# Triplets are the rows of the factors

A problem that is assembled with numbered columns, a counter of rows and triplets is the one that is
assembled by lists (`NormalEquations.assembleIndexed_eq`). The columns are numbered as in the layout
(`NormalEquations.numberRanges_eq`). The triplets of a factor that come to be in a column are the
entries of its rows there (`NormalEquations.exists_lists_plainRows`), where only zeros are left out.
They come by increasing row, one factor after the other, so a column of the matrix holds them as
they were collected (`SparseMat.Lists.ofTriplets?`).
-/

namespace Smoothing

variable {α : Type}

theorem KeyMap.get?_ofList {β : Type} {es : List (Key × β)} (hes : (es.map (·.1)).Nodup) :
    ∀ e ∈ es, (KeyMap.ofList es).get? e.1 = some e.2 := by
  have hfold : ∀ m : KeyMap β,
      (∀ e ∈ es, (es.foldl (fun m e => m.insert e.1 e.2) m).get? e.1 = some e.2) ∧
        ∀ k, k ∉ es.map (·.1) → (es.foldl (fun m e => m.insert e.1 e.2) m).get? k = m.get? k := by
    induction es with
    | nil => exact fun m => ⟨fun e he => absurd he List.not_mem_nil, fun k _ => rfl⟩
    | cons a es ih =>
      obtain ⟨ha, hes⟩ := List.nodup_cons.mp hes
      intro m
      obtain ⟨hin, hout⟩ := ih hes (m.insert a.1 a.2)
      refine ⟨List.forall_mem_cons.mpr ⟨?_, hin⟩, fun k hk => ?_⟩
      · rw [List.foldl_cons, hout a.1 ha, KeyMap.get?_insert_self]
      · rw [List.map_cons, List.mem_cons, not_or] at hk
        rw [List.foldl_cons, hout k hk.2, KeyMap.get?_insert_of_ne _ _ hk.1]
  exact (hfold KeyMap.empty).1

variable [Scalar α]

namespace SparseVec

/-! ### Columns -/

/-- The entries of a column that are not zero, where the column starts at a row. -/
def entries (i n : ℕ) (x : ℕ → α) : SparseVec α :=
  (List.range n).filterMap fun p => if x p == 0 then none else some (i + p, x p)

theorem entries_congr {i n : ℕ} {x y : ℕ → α} (h : ∀ p < n, x p = y p) :
    entries i n x = entries i n y := by
  unfold entries
  refine List.filterMap_congr fun p hp => ?_
  rw [h p (List.mem_range.mp hp)]

theorem entries_add (i m n : ℕ) (x : ℕ → α) :
    entries i (m + n) x = entries i m x ++ entries (i + m) n fun p => x (m + p) := by
  unfold entries
  rw [List.range_add, List.filterMap_append, List.filterMap_map]
  congr 1
  refine List.filterMap_congr fun p _ => ?_
  rw [Function.comp_apply, Nat.add_assoc]

theorem entries_zero (h0 : ((0 : α) == 0) = true) (i n : ℕ) :
    entries i n (fun _ => (0 : α)) = [] := by
  unfold entries
  rw [List.filterMap_eq_nil_iff]
  intro p _
  rw [if_pos h0]

theorem ofList_eq_entries (xs : List α) : ofList xs = entries 0 xs.length (xs.getD · 0) := by
  have hfrom : ∀ (xs : List α) (i : ℕ), ((xs.zipIdx i).filter fun e => !(e.1 == 0)).map Prod.swap =
      entries i xs.length (xs.getD · 0) := by
    intro xs
    induction xs with
    | nil => exact fun i => rfl
    | cons x xs ih =>
      intro i
      have hone : entries i 1 ((x :: xs).getD · 0) = if x == 0 then [] else [(i, x)] := by
        cases hx : x == 0 <;> simp [entries, hx]
      rw [List.length_cons, Nat.add_comm, entries_add, hone, List.zipIdx_cons, List.filter_cons]
      have htail : (fun p => (x :: xs).getD (1 + p) 0) = (xs.getD · 0) := by
        funext p
        rw [Nat.add_comm, List.getD_cons_succ]
      rw [htail, ← ih (i + 1)]
      cases hx : x == 0 <;> rfl
  exact hfrom xs 0

theorem bounds_of_mem_entries {i n : ℕ} {x : ℕ → α} {e : ℕ × α} (he : e ∈ entries i n x) :
    i ≤ e.1 ∧ e.1 < i + n := by
  obtain ⟨p, hp, he⟩ := List.mem_filterMap.mp he
  have := List.mem_range.mp hp
  split_ifs at he
  cases he
  omega

theorem sorted_entries (i n : ℕ) (x : ℕ → α) :
    (entries i n x).Pairwise fun a b => a.1 < b.1 := by
  unfold entries
  rw [List.pairwise_filterMap]
  refine List.pairwise_lt_range.imp fun {p q} hpq a ha b hb => ?_
  split_ifs at ha hb
  cases ha
  cases hb
  show i + p < i + q
  omega

theorem put_of_lt {i : ℕ} (x : α) {v : SparseVec α} (h : ∀ e ∈ v, e.1 < i) :
    put i x v = v ++ [(i, x)] := by
  induction v with
  | nil => rfl
  | cons e v ih =>
    obtain ⟨he, hv⟩ := List.forall_mem_cons.mp h
    rw [put, if_neg (by omega), if_neg (by omega), ih hv]
    rfl

/-- Entries that come by increasing place are listed one after the other. -/
theorem foldl_put {v es : SparseVec α} (h : (v ++ es).Pairwise fun a b => a.1 < b.1) :
    es.foldl (fun v e => put e.1 e.2 v) v = v ++ es := by
  induction es generalizing v with
  | nil => exact (List.append_nil v).symm
  | cons e es ih =>
    have hv : ∀ a ∈ v, a.1 < e.1 := fun a ha =>
      (List.pairwise_append.mp h).2.2 a ha e List.mem_cons_self
    have happend : v ++ e :: es = (v ++ [e]) ++ es := List.append_cons v e es
    rw [List.foldl_cons, put_of_lt _ hv, happend]
    exact ih (happend ▸ h)

end SparseVec

namespace SparseMat

open SparseVec

/-- The entries that come to be in a column. -/
def inColumn (ts : List (Triplet α)) (j : ℕ) : SparseVec α :=
  (ts.filter (·.col = j)).map fun t => (t.row, t.value)

omit [Scalar α] in
theorem inColumn_append (ts us : List (Triplet α)) (j : ℕ) :
    inColumn (ts ++ us) j = inColumn ts j ++ inColumn us j := by
  unfold inColumn
  rw [List.filter_append, List.map_append]

theorem exists_foldlM_put? {ts : List (Triplet α)} {m : SparseMat α}
    (hts : ∀ t ∈ ts, t.row < m.height ∧ t.col < m.columns.size) :
    ∃ m', ts.foldlM put? m = some m' ∧ m'.height = m.height ∧
      m'.columns.size = m.columns.size ∧ ∀ j < m.columns.size, m'.columns.getD j [] =
        (inColumn ts j).foldl (fun v e => put e.1 e.2 v) (m.columns.getD j []) := by
  induction ts generalizing m with
  | nil => exact ⟨m, rfl, rfl, rfl, fun _ _ => rfl⟩
  | cons t ts ih =>
    obtain ⟨ht, hts⟩ := List.forall_mem_cons.mp hts
    set m₁ : SparseMat α := ⟨m.height, m.columns.modify t.col (put t.row t.value)⟩ with hm₁
    have hput : m.put? t = some m₁ := if_pos ht
    have hsize : m₁.columns.size = m.columns.size := Array.size_modify
    obtain ⟨m', hm', hheight, hcols, hget⟩ := ih (m := m₁) fun a ha => by
      rw [hsize]
      exact hts a ha
    refine ⟨m', ?_, hheight, hcols.trans hsize, fun j hj => ?_⟩
    · rw [List.foldlM_cons, hput]
      exact hm'
    · rw [hget j (by rwa [hsize])]
      have hfirst : m₁.columns.getD j [] =
          if t.col = j then put t.row t.value (m.columns.getD j []) else m.columns.getD j [] := by
        rw [hm₁, getD_modify]
        simp only [hj, and_true, eq_comm]
      rw [hfirst]
      unfold inColumn
      by_cases htj : t.col = j
      · simp [htj]
      · simp [htj]

omit [Scalar α] in
theorem mem_inColumn {ts : List (Triplet α)} {t : Triplet α} (ht : t ∈ ts) :
    (t.row, t.value) ∈ inColumn ts t.col :=
  List.mem_map.mpr ⟨t, List.mem_filter.mpr ⟨ht, by simp⟩, rfl⟩

/-- Triplets list the entries of rows in `w` columns, where the first one of the rows has a
number. -/
structure Lists (ts : List (Triplet α)) (w row : ℕ) (rows : List (Vec α)) : Prop where
  inside : ∀ j < w, inColumn ts j = entries row rows.length fun i => (rows.getD i ⟨[]⟩).get j
  outside : ∀ j, w ≤ j → inColumn ts j = []

theorem Lists.append {ts us : List (Triplet α)} {w row : ℕ} {rows below : List (Vec α)}
    (ht : Lists ts w row rows) (hu : Lists us w (row + rows.length) below) :
    Lists (ts ++ us) w row (rows ++ below) := by
  refine ⟨fun j hj => ?_, fun j hj => ?_⟩
  · rw [inColumn_append, ht.inside j hj, hu.inside j hj, List.length_append, entries_add]
    congr 1
    · refine entries_congr fun i hi => ?_
      rw [List.getD_append _ _ _ _ hi]
    · refine entries_congr fun i _ => ?_
      rw [List.getD_append_right _ _ _ _ (Nat.le_add_right _ _), Nat.add_sub_cancel_left]
  · rw [inColumn_append, ht.outside j hj, hu.outside j hj]
    rfl

theorem columns_ofMat (m : Mat α) : (ofMat m).columns =
    ((List.range m.cols).map fun j => entries 0 m.height fun i => m.get i j).toArray := by
  refine congrArg List.toArray (List.map_congr_left fun j _ => ?_)
  rw [ofList_eq_entries, List.length_map]
  refine entries_congr fun i hi => ?_
  have hi' : i < (m.rows.map (·.get j)).length := by rwa [List.length_map]
  rw [List.getD_eq_getElem _ _ hi', List.getElem_map, Mat.get, List.getD_eq_getElem _ _ hi]

/-- **Triplets that list the entries of rows make up their matrix.** -/
theorem Lists.ofTriplets? {ts : List (Triplet α)} {w : ℕ} {rows : List (Vec α)}
    (h : Lists ts w 0 rows) :
    SparseMat.ofTriplets? rows.length w ts = some (ofMat (Mat.ofRows w rows)) := by
  have hcol : ∀ t ∈ ts, t.col < w := by
    intro t ht
    by_contra hle
    have hmem := mem_inColumn ht
    rw [h.outside t.col (not_lt.mp hle)] at hmem
    exact absurd hmem List.not_mem_nil
  have hrow : ∀ t ∈ ts, t.row < rows.length := by
    intro t ht
    have hmem := mem_inColumn ht
    rw [h.inside t.col (hcol t ht)] at hmem
    have := bounds_of_mem_entries hmem
    omega
  have hsize : (Array.replicate w ([] : SparseVec α)).size = w := Array.size_replicate
  obtain ⟨⟨height, columns⟩, hput, hheight, hcols, hget⟩ :=
    exists_foldlM_put? (m := ⟨rows.length, Array.replicate w []⟩) fun t ht =>
      ⟨hrow t ht, (hcol t ht).trans_eq hsize.symm⟩
  dsimp only at hheight hcols hget
  rw [hsize] at hcols hget
  have hcolumns : columns = (ofMat (Mat.ofRows w rows)).columns := by
    rw [columns_ofMat]
    refine Array.ext (by rw [hcols]; simp [Mat.ofRows]) fun j hj hj' => ?_
    have hjw : j < w := hcols ▸ hj
    have hnil : (Array.replicate w ([] : SparseVec α)).getD j [] = [] := by
      rw [Array.getD_eq_getD_getElem?, Array.getElem?_replicate, if_pos hjw, Option.getD_some]
    have hcolumn := hget j hjw
    -- the rows of the triplets of one column increase, so each is put at the end
    rw [hnil, h.inside j hjw, foldl_put (sorted_entries _ _ _), List.nil_append,
      Array.getD_eq_getD_getElem?, Array.getElem?_eq_getElem hj, Option.getD_some] at hcolumn
    rw [hcolumn, List.getElem_toArray, List.getElem_map, List.getElem_range]
    have hlength : (Mat.ofRows w rows).height = rows.length := List.length_map _
    rw [hlength]
    refine entries_congr fun i _ => ?_
    rw [Mat.get_ofRows rows i hjw]
  have hofMat : (⟨rows.length, (ofMat (Mat.ofRows w rows)).columns⟩ : SparseMat α) =
      ofMat (Mat.ofRows w rows) := by
    simp [ofMat, Mat.height, Mat.ofRows]
  rw [SparseMat.ofTriplets?, hput, hheight, hcolumns, hofMat]

end SparseMat

namespace NormalEquations

open SparseVec SparseMat

/-! ### The table of the columns -/

/-- The columns after those of a layout have been added. -/
def Ranges.addAll (c : Ranges) (l : Layout) : Ranges :=
  ⟨(l.ranges c.count).foldl (fun m e => m.insert e.1 e.2) c.of, c.count + Layout.width l⟩

omit [Scalar α] in
/-- **Columns are numbered as in the layout**, and fail to be for the same variable. -/
theorem numberRanges_eq (dims : KeyMap ℕ) (ks : List Key) (c : Ranges) :
    (numberRanges dims ks c : LinearRun α Ranges) = c.addAll <$> layoutOf dims ks := by
  induction ks generalizing c with
  | nil => rfl
  | cons k ks ih =>
    rw [numberRanges, layoutOf]
    cases dims.get? k with
    | none => rfl
    | some w =>
      dsimp only
      rw [ih, map_eq_pure_bind, map_eq_pure_bind, bind_assoc]
      refine bind_congr fun l => ?_
      rw [pure_bind]
      unfold Ranges.addAll Ranges.add
      rw [Layout.ranges, List.foldl_cons, Layout.width_cons, Nat.add_assoc]

omit [Scalar α] in
theorem layoutOf_of_ok {dims : KeyMap ℕ} {ks : List Key} {l : Layout}
    (h : (layoutOf dims ks : LinearRun α Layout).outcome = .ok l) :
    l.map (·.1) = ks ∧ ∀ e ∈ l, dims.get? e.1 = some e.2 := by
  induction ks generalizing l with
  | nil =>
    cases h
    exact ⟨rfl, fun e he => absurd he List.not_mem_nil⟩
  | cons k ks ih =>
    rw [layoutOf] at h
    cases hk : dims.get? k with
    | none =>
      rw [hk] at h
      exact absurd h LinearError.outcome_stop_ne_ok
    | some w =>
      rw [hk] at h
      dsimp only at h
      obtain ⟨rest, hrest, h⟩ := Logged.outcome_bind_eq_ok.mp h
      cases h
      obtain ⟨hkeys, hdims⟩ := ih hrest
      exact ⟨by rw [List.map_cons, hkeys], List.forall_mem_cons.mpr ⟨hk, hdims⟩⟩

/-! ### The triplets of a factor -/

theorem inColumn_columnTriplets (row col : ℕ) (m : Mat α) (q j : ℕ) :
    inColumn (columnTriplets row col m q) j =
      if col + q = j then entries row m.height (m.get · q) else [] := by
  unfold inColumn columnTriplets entries
  rw [List.filter_filterMap, List.map_filterMap]
  split_ifs with hq
  · refine List.filterMap_congr fun i _ => ?_
    cases m.get i q == 0 <;> simp [hq]
  · rw [List.filterMap_eq_nil_iff]
    intro i _
    cases m.get i q == 0 <;> simp [hq]

/-- **A block adds its entries to its columns only.** -/
theorem inColumn_blockTriplets (row col : ℕ) (m : Mat α) (j : ℕ) :
    inColumn (blockTriplets row col m) j =
      if col ≤ j ∧ j < col + m.cols then entries row m.height (m.get · (j - col)) else [] := by
  have hcols : ∀ n, inColumn ((List.range n).flatMap (columnTriplets row col m)) j =
      if col ≤ j ∧ j < col + n then entries row m.height (m.get · (j - col)) else [] := by
    intro n
    induction n with
    | zero =>
      rw [if_neg (by omega)]
      rfl
    | succ n ih =>
      rw [List.range_succ, List.flatMap_append, inColumn_append, ih, List.flatMap_singleton,
        inColumn_columnTriplets]
      by_cases hj : col + n = j
      · rw [if_pos hj, if_neg (by omega), if_pos (by omega), List.nil_append]
        rw [show j - col = n by omega]
      · rw [if_neg hj, List.append_nil]
        exact if_congr (by omega) rfl rfl
  exact hcols m.cols

section Factors
variable {c : Ranges} {l : Layout} (hc : ∀ e ∈ l.ranges 0, c.of.get? e.1 = some e.2)
  (hl : (l.map (·.1)).Nodup)
include hc hl

theorem exists_factorTriplets? (row : ℕ) {h : ℕ} {ts : List (Key × Mat α)}
    (hts : (ts.map (·.1)).Nodup) (hin : ∀ t ∈ ts, (t.1, t.2.cols) ∈ l)
    (hh : ∀ t ∈ ts, t.2.height = h) :
    ∃ us, factorTriplets? c row ts = some us ∧
      (∀ e ∈ l.ranges 0, ∀ q < e.2.2, inColumn us (e.2.1 + q) =
        match KeyMap.find? e.1 ts with
        | some m => entries row h (m.get · q)
        | none => []) ∧
      ∀ j, Layout.width l ≤ j → inColumn us j = [] := by
  induction ts with
  | nil => exact ⟨[], rfl, fun _ _ _ _ => rfl, fun _ _ => rfl⟩
  | cons t ts ih =>
    obtain ⟨htts, hts⟩ := List.nodup_cons.mp hts
    obtain ⟨hint, hin⟩ := List.forall_mem_cons.mp hin
    obtain ⟨rfl, hh⟩ := List.forall_mem_cons.mp hh
    obtain ⟨us, hus, hinside, houtside⟩ := ih hts hin hh
    obtain ⟨a, ha, hkey, hwidth⟩ := Layout.exists_mem_ranges 0 hint
    dsimp only at hkey hwidth
    have hbounds := Layout.bounds_of_mem_ranges ha
    refine ⟨blockTriplets row a.2.1 t.2 ++ us, ?_, fun e he q hq => ?_, fun j hj => ?_⟩
    · have hget : c.of.get? t.1 = some a.2 := hkey ▸ hc a ha
      rw [factorTriplets?, hget, hus]
      rfl
    · rw [inColumn_append, inColumn_blockTriplets, hinside e he q hq, KeyMap.find?]
      by_cases het : t.1 = e.1
      · obtain rfl := Layout.eq_of_mem_ranges_of_key hl ha he (hkey.trans het)
        rw [if_pos (by omega), if_pos het, KeyMap.find?_eq_none_iff.mpr (hkey ▸ htts),
          Nat.add_sub_cancel_left]
        exact List.append_nil _
      · have hout : ¬ (a.2.1 ≤ e.2.1 + q ∧ e.2.1 + q < a.2.1 + t.2.cols) := fun hin => by
          rw [Layout.eq_of_mem_ranges ha he (hwidth ▸ hin) ⟨by omega, by omega⟩] at hkey
          exact het hkey.symm
        rw [if_neg hout, if_neg het, List.nil_append]
    · rw [inColumn_append, inColumn_blockTriplets, if_neg (by omega), houtside j hj]
      rfl

variable (h0 : ((0 : α) == 0) = true)
include h0

/-- **The triplets of a factor list its rows in the layout.** The zeros of the rows are left out. -/
theorem exists_lists_plainRows {f : GaussianFactor α} (hf : f.InLayout l) (row : ℕ) :
    ∃ us, factorTriplets? c row f.terms = some us ∧
      Lists us (Layout.width l) row (f.plainRows l) := by
  obtain ⟨us, hus, hinside, houtside⟩ := exists_factorTriplets? hc hl row f.nodup hf f.height_eq
  refine ⟨us, hus, fun j hj => ?_, houtside⟩
  have hj' : j < 0 + Layout.width l := by omega
  obtain ⟨e, ⟨he, hle, hlt⟩, -⟩ := Layout.existsUnique_range (Nat.zero_le j) hj'
  obtain ⟨q, rfl⟩ := Nat.exists_eq_add_of_le hle
  have hq : q < e.2.2 := by omega
  have hentry : ∀ i < f.height, ((f.plainRows l).getD i ⟨[]⟩).get (e.2.1 + q) = f.entry e.1 i q :=
    fun i hi => GaussianFactor.get_rowsIn_of_mem_ranges hf hl List.length_replicate hi
      (fun _ h => h) he hq (Nat.zero_add _)
  rw [hinside e he q hq, GaussianFactor.length_plainRows, entries_congr hentry]
  unfold GaussianFactor.entry GaussianFactor.blockFor?
  cases KeyMap.find? e.1 f.terms with
  | some m => rfl
  | none => exact (entries_zero h0 row f.height).symm

end Factors

/-! ### The problem -/

theorem writeResidual?_eq (i : ℕ) (bs : List α) {r : Vec α} (h : i + bs.length ≤ r.size) :
    writeResidual? i bs r =
      some ⟨r.coords.take i ++ bs.map (- ·) ++ r.coords.drop (i + bs.length)⟩ := by
  induction bs generalizing i r with
  | nil =>
    rw [writeResidual?, List.map_nil, List.append_nil, List.length_nil, Nat.add_zero,
      List.take_append_drop]
  | cons b bs ih =>
    have hi : i < r.coords.length := by
      have hsize : r.size = r.coords.length := rfl
      rw [List.length_cons] at h
      omega
    have hset : (⟨r.coords.set i (-b)⟩ : Vec α).size = r.size := List.length_set
    rw [List.length_cons] at h ⊢
    rw [writeResidual?, if_pos (show i < r.size from hi), ih (i + 1) (by rw [hset]; omega)]
    dsimp only
    have htake : (r.coords.set i (-b)).take (i + 1) = r.coords.take i ++ [-b] := by
      have hi' : i < (r.coords.set i (-b)).length := by rwa [List.length_set]
      rw [List.take_succ_eq_append_getElem hi', List.getElem_set_self, List.take_set_of_le le_rfl]
    rw [htake, List.drop_set_of_lt (by omega), List.map_cons, ← List.append_cons,
      Nat.add_right_comm, Nat.add_assoc]

section Problem
variable {c : Ranges} {l : Layout} (hc : ∀ e ∈ l.ranges 0, c.of.get? e.1 = some e.2)
  (hl : (l.map (·.1)).Nodup) (h0 : ((0 : α) == 0) = true)
include hc hl h0

theorem exists_layFactors? {fs : List (GaussianFactor α)} (hf : ∀ f ∈ fs, f.InLayout l) (row : ℕ)
    (ts : List (Triplet α)) {r : Vec α} (hr : r.size = row + GaussianGraph.height ⟨fs⟩) :
    ∃ us, layFactors? c row fs ts r = some (ts ++ us,
        ⟨r.coords.take row ++ fs.flatMap fun f => f.rhs.coords.map (- ·)⟩) ∧
      Lists us (Layout.width l) row (fs.flatMap (·.plainRows l)) := by
  induction fs generalizing row ts r with
  | nil =>
    have htake : r.coords.take row = r.coords := List.take_of_length_le hr.le
    refine ⟨[], ?_, fun _ _ => rfl, fun _ _ => rfl⟩
    rw [layFactors?, htake, List.append_nil, List.flatMap_nil, List.append_nil]
  | cons f fs ih =>
    obtain ⟨hf, hfs⟩ := List.forall_mem_cons.mp hf
    have hsum : GaussianGraph.height ⟨f :: fs⟩ = f.height + GaussianGraph.height ⟨fs⟩ := rfl
    have hlength : f.rhs.coords.length = f.height := rfl
    obtain ⟨vs, hvs, hlists⟩ := exists_lists_plainRows hc hl h0 hf row
    have hwrite := writeResidual?_eq row f.rhs.coords (r := r) (by omega)
    set r₁ : Vec α := ⟨r.coords.take row ++ f.rhs.coords.map (- ·) ++
      r.coords.drop (row + f.rhs.coords.length)⟩ with hr₁
    have hhead : (r.coords.take row ++ f.rhs.coords.map (- ·)).length = row + f.height := by
      have hsize : r.size = r.coords.length := rfl
      rw [List.length_append, List.length_take, List.length_map]
      omega
    have hsize : r₁.size = row + f.height + GaussianGraph.height ⟨fs⟩ := by
      have hsize : r.size = r.coords.length := rfl
      rw [hr₁, Vec.size_mk, List.length_append, hhead, List.length_drop]
      omega
    obtain ⟨us, hus, hrest⟩ := ih hfs (row + f.height) (ts ++ vs) hsize
    refine ⟨vs ++ us, ?_, ?_⟩
    · have htake : r₁.coords.take (row + f.height) = r.coords.take row ++ f.rhs.coords.map (- ·) :=
        List.take_left' hhead
      rw [layFactors?, hvs, Option.bind_eq_bind, Option.bind_some, hwrite, Option.bind_eq_bind,
        Option.bind_some, hus, htake, List.flatMap_cons, List.append_assoc, List.append_assoc]
    · rw [List.flatMap_cons]
      rw [← GaussianFactor.length_plainRows f l] at hrest
      exact hlists.append hrest

end Problem

theorem length_rows (g : GaussianGraph α) (l : Layout) :
    (g.factors.flatMap (·.plainRows l)).length = g.height := by
  obtain ⟨fs⟩ := g
  induction fs with
  | nil => rfl
  | cons f fs ih =>
    have hsum : GaussianGraph.height ⟨f :: fs⟩ = f.height + GaussianGraph.height ⟨fs⟩ := rfl
    rw [List.flatMap_cons, List.length_append, ih, GaussianFactor.length_plainRows, hsum]

/-- **With numbered columns and rows a problem is laid out as with lists**, and so nothing is looked
up or put out of range. -/
theorem assembleIndexed_eq (h0 : ((0 : α) == 0) = true) (g : GaussianGraph α)
    (o : EliminationOrder) : assembleIndexed g o = Indexed.ofAssembled <$> assemble g o := by
  unfold assembleIndexed assemble
  rw [map_eq_pure_bind, bind_assoc]
  refine Logged.bind_congr_ok fun dims hdims => ?_
  cases hfind : dims.keys.find? fun k => !o.contains k with
  | some k => rfl
  | none =>
    dsimp only
    rw [numberRanges_eq, map_eq_pure_bind, bind_assoc, bind_assoc]
    refine Logged.bind_congr_ok fun l hl => ?_
    obtain ⟨hkeys, hwidths⟩ := layoutOf_of_ok hl
    have hnodup : (l.map (·.1)).Nodup := hkeys ▸ o.nodup
    have hin : ∀ f ∈ g.factors, f.InLayout l := by
      intro f hf t ht
      have hwidth := (GaussianGraph.dims_of_ok hdims).1 f hf t ht
      have hmem : t.1 ∈ l.map (·.1) := by
        have hcontains :=
          List.find?_eq_none.mp hfind t.1 (KeyMap.mem_keys_iff_exists.mpr ⟨_, hwidth⟩)
        rw [hkeys]
        simpa [EliminationOrder.contains] using hcontains
      obtain ⟨e, he, hkey⟩ := List.mem_map.mp hmem
      have hcols := hwidths e he
      rw [hkey, hwidth] at hcols
      obtain rfl : e = (t.1, t.2.cols) := Prod.ext hkey (Option.some.inj hcols).symm
      exact he
    have hranges : ∀ e ∈ l.ranges 0, (Ranges.addAll ⟨KeyMap.empty, 0⟩ l).of.get? e.1 =
        some e.2 := by
      refine KeyMap.get?_ofList ?_
      rwa [← Layout.map_ranges l 0, List.map_map] at hnodup
    obtain ⟨us, hus, hlists⟩ := exists_layFactors? hranges hnodup h0 hin 0 []
      (r := Vec.zero g.height) (by rw [Vec.size_zero, Nat.zero_add])
    have hmat := hlists.ofTriplets?
    rw [length_rows] at hmat
    have hcount : (Ranges.addAll ⟨KeyMap.empty, 0⟩ l).count = Layout.width l := Nat.zero_add _
    rw [pure_bind, pure_bind, hus, Logged.fromOption_some, pure_bind]
    dsimp only
    rw [List.nil_append, hcount, hmat, Logged.fromOption_some, pure_bind]
    rfl

end NormalEquations

end Smoothing
