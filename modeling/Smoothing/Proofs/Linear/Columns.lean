import Mathlib
import Smoothing.Linear.Columns
import Smoothing.Proofs.Linear.Degenerate

/-!
# Numbered columns are a layout

For factors with consistent widths the columns of a variable and its separator are numbered as in
their layout (`Elimination.exists_numberColumns`). Written into a matrix of zeros the factors are
their stacked rows (`Elimination.writeFactors_eq`), and what is cut out of the triangular factor are
the blocks of the layout (`Elimination.cutBlocks_eq`). Nothing is looked up or written out of range,
so a variable is eliminated with numbered columns as it is with lists
(`Elimination.eliminateOneIndexed_eq`).
-/

namespace Smoothing

variable {α : Type}

namespace Mat

theorem height_column (v : Vec α) : (column v).height = v.size := List.length_map _

variable [Scalar α]

theorem get_column {v : Vec α} {i : ℕ} (h : i < v.size) : (column v).get i 0 = v.get i := by
  rw [Mat.get, column, Vec.getD_map_singleton h, Vec.get_cons_zero]

theorem entry?_of_lt {m : Mat α} {i j : ℕ} (hi : i < m.height) (hj : j < m.cols) :
    m.entry? i j = some (m.get i j) :=
  if_pos ⟨hi, hj⟩

/-- **Writing changes the entries of the block only.** -/
theorem exists_write? {m b : Mat α} {i j : ℕ} (hi : i + b.height ≤ m.height)
    (hj : j + b.cols ≤ m.cols) :
    ∃ m', m.write? i j b.height b.cols b = some m' ∧ m'.height = m.height ∧ m'.cols = m.cols ∧
      ∀ p q, m'.get p q =
        if i ≤ p ∧ p < i + b.height ∧ j ≤ q ∧ q < j + b.cols then b.get (p - i) (q - j)
        else m.get p q := by
  refine ⟨_, if_pos ⟨⟨hi, hj⟩, rfl, rfl⟩, height_ofFn _ _ _, rfl, fun p q => ?_⟩
  by_cases hin : p < m.height ∧ q < m.cols
  · exact get_ofFn hin.1 hin.2
  · -- both matrices end before this entry
    rw [if_neg (by omega)]
    rcases not_and_or.mp hin with hp | hq
    · rw [get_of_height_le (not_lt.mp hp),
        get_of_height_le ((height_ofFn _ _ _).trans_le (not_lt.mp hp))]
    · exact (get_of_cols_le (m := ofFn _ _ _) (not_lt.mp hq) p).trans
        (get_of_cols_le (not_lt.mp hq) p).symm

end Mat

namespace Elimination

/-! ### The numbers -/

/-- The columns are those of a layout. -/
structure Columns.Numbers (c : Columns) (l : Layout) : Prop where
  count : c.count = Layout.width l
  first : ∀ e ∈ l.ranges 0, c.first.get? e.1 = some e.2.1

theorem numberColumns_spec {dims : KeyMap ℕ} {l : Layout} (hl : (l.map (·.1)).Nodup)
    (hdims : ∀ e ∈ l, dims.get? e.1 = some e.2) (c : Columns) :
    ∃ c', numberColumns dims (l.map (·.1)) c = (pure c' : LinearRun α Columns) ∧
      c'.count = c.count + Layout.width l ∧
      (∀ e ∈ l.ranges c.count, c'.first.get? e.1 = some e.2.1) ∧
      ∀ k, k ∉ l.map (·.1) → c'.first.get? k = c.first.get? k := by
  induction l generalizing c with
  | nil => exact ⟨c, rfl, rfl, fun e he => absurd he List.not_mem_nil, fun k _ => rfl⟩
  | cons e l ih =>
    obtain ⟨hel, hl⟩ := List.nodup_cons.mp hl
    obtain ⟨hde, hdims⟩ := List.forall_mem_cons.mp hdims
    obtain ⟨c', hc', hcount, hfirst, hother⟩ := ih hl hdims (c.add e.1 e.2)
    refine ⟨c', ?_, ?_, fun a ha => ?_, fun k hk => ?_⟩
    · rw [List.map_cons, numberColumns, hde]
      exact hc'
    · rw [hcount, Layout.width_cons, ← Nat.add_assoc]
      rfl
    · rcases List.mem_cons.mp ha with rfl | ha
      · rw [hother _ hel]
        exact KeyMap.get?_insert_self _ _ _
      · exact hfirst a ha
    · rw [List.map_cons, List.mem_cons, not_or] at hk
      rw [hother k hk.2]
      exact KeyMap.get?_insert_of_ne _ _ hk.1

/-- **The columns of a variable and its separator are numbered as in their layout.** -/
theorem exists_numberColumns {dims : KeyMap ℕ} {k : Key} {dim : ℕ} {others : Layout}
    (hl : (((k, dim) :: others).map (·.1)).Nodup) (hdims : ∀ e ∈ others, dims.get? e.1 = some e.2) :
    ∃ c, numberColumns dims (others.map (·.1)) ⟨KeyMap.empty.insert k 0, dim⟩ =
      (pure c : LinearRun α Columns) ∧ c.Numbers ((k, dim) :: others) := by
  obtain ⟨hk, hl⟩ := List.nodup_cons.mp hl
  obtain ⟨c, hc, hcount, hfirst, hother⟩ :=
    numberColumns_spec hl hdims ⟨KeyMap.empty.insert k 0, dim⟩
  refine ⟨c, hc, hcount, List.forall_mem_cons.mpr ⟨?_, ?_⟩⟩
  · rw [hother k hk]
    exact KeyMap.get?_insert_self _ _ _
  · rwa [Nat.zero_add]

/-! ### Writing the factors -/

section Write
variable [Scalar α] {c : Columns} {l : Layout} (hc : c.Numbers l) (hl : (l.map (·.1)).Nodup)
include hc hl

/-- **The blocks of a factor are written into the ranges of their keys.** -/
theorem exists_writeBlocks {i h : ℕ} {ts : List (Key × Mat α)} (hts : (ts.map (·.1)).Nodup)
    (hin : ∀ t ∈ ts, (t.1, t.2.cols) ∈ l) (hh : ∀ t ∈ ts, t.2.height = h) {ab : Mat α}
    (hi : i + h ≤ ab.height) (hw : Layout.width l ≤ ab.cols) :
    ∃ ab', writeBlocks c i h ts ab = some ab' ∧ ab'.height = ab.height ∧ ab'.cols = ab.cols ∧
      (∀ p q, p < i ∨ i + h ≤ p → ab'.get p q = ab.get p q) ∧
      ∀ e ∈ l.ranges 0, ∀ p < h, ∀ q < e.2.2, ab'.get (i + p) (e.2.1 + q) =
        match KeyMap.find? e.1 ts with
        | some m => m.get p q
        | none => ab.get (i + p) (e.2.1 + q) := by
  induction ts generalizing ab with
  | nil => exact ⟨ab, rfl, rfl, rfl, fun _ _ _ => rfl, fun _ _ _ _ _ _ => rfl⟩
  | cons t ts ih =>
    obtain ⟨htts, hts⟩ := List.nodup_cons.mp hts
    obtain ⟨hint, hin⟩ := List.forall_mem_cons.mp hin
    obtain ⟨rfl, hh⟩ := List.forall_mem_cons.mp hh
    obtain ⟨a, ha, hkey, hwidth⟩ := Layout.exists_mem_ranges 0 hint
    dsimp only at hkey hwidth
    have hbounds := Layout.bounds_of_mem_ranges ha
    obtain ⟨ab₁, hwrite, hheight, hcols, hget⟩ :=
      Mat.exists_write? (b := t.2) (j := a.2.1) hi (by omega)
    have hi₁ : i + t.2.height ≤ ab₁.height := hi.trans_eq hheight.symm
    have hw₁ : Layout.width l ≤ ab₁.cols := hw.trans_eq hcols.symm
    obtain ⟨ab', hab', hheight', hcols', hsame, hblocks⟩ := ih hts hin hh hi₁ hw₁
    refine ⟨ab', ?_, hheight'.trans hheight, hcols'.trans hcols, fun p q hp => ?_,
      fun e he p hp q hq => ?_⟩
    · simp only [writeBlocks, ← hkey, hc.first a ha, hwrite, hab', Option.bind_eq_bind,
        Option.bind_some]
    · rw [hsame p q hp, hget, if_neg (by omega)]
    · rw [hblocks e he p hp q hq, KeyMap.find?]
      by_cases het : t.1 = e.1
      · -- the block that was written first
        obtain rfl := Layout.eq_of_mem_ranges_of_key hl ha he (hkey.trans het)
        rw [if_pos het, KeyMap.find?_eq_none_iff.mpr (hkey ▸ htts)]
        dsimp only
        rw [hget, if_pos (by omega), Nat.add_sub_cancel_left, Nat.add_sub_cancel_left]
      · rw [if_neg het]
        have hout : ¬ (a.2.1 ≤ e.2.1 + q ∧ e.2.1 + q < a.2.1 + t.2.cols) := fun hin => by
          rw [Layout.eq_of_mem_ranges ha he (hwidth ▸ hin) ⟨by omega, by omega⟩] at hkey
          exact het hkey.symm
        rw [hget, if_neg fun h => hout ⟨h.2.2.1, h.2.2.2⟩]

/-- **A factor is written as its rows in the layout.** -/
theorem exists_writeFactor {f : GaussianFactor α} (hf : f.InLayout l) {i : ℕ} {ab : Mat α}
    (hi : i + f.height ≤ ab.height) (hw : ab.cols = Layout.width l + 1)
    (hzero : ∀ p, i ≤ p → ∀ q, ab.get p q = 0) :
    ∃ ab₁ ab', writeBlocks c i f.height f.terms ab = some ab₁ ∧
      ab₁.write? i c.count f.height 1 (Mat.column f.rhs) = some ab' ∧ ab'.height = ab.height ∧
      ab'.cols = ab.cols ∧ (∀ p q, p < i ∨ i + f.height ≤ p → ab'.get p q = ab.get p q) ∧
      ∀ p < f.height, ∀ q < Layout.width l + 1,
        ab'.get (i + p) q = ((f.augmentedRows l).getD p ⟨[]⟩).get q := by
  obtain ⟨ab₁, hblocks, hheight, hcols, hsame, hget⟩ :=
    exists_writeBlocks hc hl f.nodup hf f.height_eq hi (hw ▸ Nat.le_succ _)
  have hrhs : (Mat.column f.rhs).height = f.height := Mat.height_column _
  have hone : (Mat.column f.rhs).cols = 1 := rfl
  obtain ⟨ab', hwrite, hheight', hcols', hget'⟩ :=
    Mat.exists_write? (m := ab₁) (b := Mat.column f.rhs) (i := i)
    (j := c.count) (by omega) (by rw [hc.count]; omega)
  rw [hrhs, hone] at hwrite hget'
  refine ⟨ab₁, ab', hblocks, hwrite, hheight'.trans hheight, hcols'.trans hcols, fun p q hp => ?_,
    fun p hp q hq => ?_⟩
  · rw [hget', if_neg (by omega), hsame p q hp]
  rw [hget', hc.count]
  by_cases hlast : q = Layout.width l
  · rw [if_pos (by omega), hlast, GaussianFactor.get_augmentedRows_width hf hl hp,
      Nat.add_sub_cancel_left, Nat.sub_self, Mat.get_column hp]
  · have hq' : q < 0 + Layout.width l := by omega
    obtain ⟨e, ⟨he, hle, hlt⟩, -⟩ := Layout.existsUnique_range (Nat.zero_le q) hq'
    obtain ⟨j, rfl⟩ := Nat.exists_eq_add_of_le hle
    rw [if_neg (by omega), GaussianFactor.get_augmentedRows_of_mem_ranges hf hl hp he (by omega),
      hget e he p hp j (by omega), hzero _ (Nat.le_add_right i p)]
    rfl

omit hc hl in
theorem get_stack_cons (f : GaussianFactor α) (fs : List (GaussianFactor α)) (p : ℕ) {q : ℕ}
    (hq : q < Layout.width l + 1) :
    (stack l (f :: fs)).get p q =
      if p < f.height then ((f.augmentedRows l).getD p ⟨[]⟩).get q
      else (stack l fs).get (p - f.height) q := by
  have hlen := GaussianFactor.length_augmentedRows f l
  rw [stack, stack, Mat.get_ofRows _ _ hq, Mat.get_ofRows _ _ hq, List.flatMap_cons]
  split_ifs with hp
  · rw [List.getD_append _ _ _ _ (by rwa [hlen])]
  · rw [List.getD_append_right _ _ _ _ (by rw [hlen]; exact not_lt.mp hp), hlen]

/-- **Factors are written as their stacked rows**, below the rows that are there. -/
theorem exists_writeFactors {fs : List (GaussianFactor α)} (hf : ∀ f ∈ fs, f.InLayout l) {i : ℕ}
    {ab : Mat α} (hi : ab.height = i + GaussianGraph.height ⟨fs⟩)
    (hw : ab.cols = Layout.width l + 1) (hzero : ∀ p, i ≤ p → ∀ q, ab.get p q = 0) :
    ∃ ab', writeFactors c i fs ab = some ab' ∧ ab'.height = ab.height ∧ ab'.cols = ab.cols ∧
      (∀ p < i, ∀ q, ab'.get p q = ab.get p q) ∧
      ∀ p < GaussianGraph.height ⟨fs⟩, ∀ q < Layout.width l + 1, ab'.get (i + p) q =
        (stack l fs).get p q := by
  induction fs generalizing i ab with
  | nil => exact ⟨ab, rfl, rfl, rfl, fun _ _ _ => rfl, fun p hp => absurd hp (Nat.not_lt_zero p)⟩
  | cons f fs ih =>
    obtain ⟨hf, hfs⟩ := List.forall_mem_cons.mp hf
    have hsum : GaussianGraph.height ⟨f :: fs⟩ = f.height + GaussianGraph.height ⟨fs⟩ := rfl
    obtain ⟨ab₁, ab₂, hblocks, hrhs, hheight, hcols, hsame, hget⟩ :=
      exists_writeFactor hc hl hf (i := i) (by omega) hw hzero
    have hzero' : ∀ p, i + f.height ≤ p → ∀ q, ab₂.get p q = 0 := fun p hp q => by
      rw [hsame p q (.inr hp), hzero p (by omega)]
    have hi₂ : ab₂.height = i + f.height + GaussianGraph.height ⟨fs⟩ := by omega
    obtain ⟨ab', hab', hheight', hcols', hsame', hget'⟩ := ih hfs hi₂ (hcols.trans hw) hzero'
    refine ⟨ab', ?_, hheight'.trans hheight, hcols'.trans hcols, fun p hp q => ?_,
      fun p hp q hq => ?_⟩
    · simp only [writeFactors, hblocks, hrhs, hab', Option.bind_eq_bind, Option.bind_some]
    · rw [hsame' p (by omega), hsame p q (.inl hp)]
    · rw [get_stack_cons f fs p hq]
      split_ifs with hpf
      · rw [hsame' _ (by omega), hget p hpf q hq]
      · rw [← hget' _ (by omega) q hq]
        congr 1
        omega

theorem writeFactors_eq {fs : List (GaussianFactor α)} (hf : ∀ f ∈ fs, f.InLayout l) :
    writeFactors c 0 fs (Mat.zero (GaussianGraph.height ⟨fs⟩) (c.count + 1)) =
    some (stack l fs) := by
  have hzero := Mat.height_zero (α := α) (GaussianGraph.height ⟨fs⟩) (c.count + 1)
  have hcount : (Mat.zero (GaussianGraph.height ⟨fs⟩) (c.count + 1) : Mat α).cols =
      Layout.width l + 1 :=
    congrArg (· + 1) hc.count
  obtain ⟨ab, hab, hheight, hcols, -, hget⟩ :=
    exists_writeFactors hc hl hf (i := 0) (by rw [hzero, Nat.zero_add]) hcount fun p _ q =>
      Mat.get_zero _ _ p q
  rw [hab, Mat.ext_get (a := ab) (b := stack l fs) (by rw [hheight, hzero, height_stack])
    (hcols.trans hcount)]
  intro p hp q hq
  rw [hheight, hzero] at hp
  rw [hcols, hcount] at hq
  rw [← hget p hp q hq, Nat.zero_add]

end Write

/-! ### Reading the triangular factor -/

section Read
variable [Scalar α]

theorem findNegligible?_eq {r : Mat α} {is : List ℕ} (h : ∀ i ∈ is, i < r.height ∧ i < r.cols)
    (scale : α) :
    findNegligible? r scale is =
      some (is.any fun i => decide (Scalar.abs (r.get i i) ≤ pivotTolerance * scale)) := by
  induction is with
  | nil => rfl
  | cons i is ih =>
    obtain ⟨⟨hheight, hcols⟩, his⟩ := List.forall_mem_cons.mp h
    rw [findNegligible?, Mat.entry?_of_lt hheight hcols, List.any_cons]
    by_cases hle : Scalar.abs (r.get i i) ≤ pivotTolerance * scale
    · simp [hle]
    · simp [hle, ih his]

theorem isNegligible?_eq {r : Mat α} {n : ℕ} (hheight : n ≤ r.height) (hcols : n ≤ r.cols)
    (scale : α) : isNegligible? r n scale = some (isNegligible r n scale) := by
  have hmem : ∀ i ∈ List.range n, i < r.height ∧ i < r.cols := fun i hi => by
    have := List.mem_range.mp hi
    omega
  unfold isNegligible? isNegligible
  rw [findNegligible?_eq hmem]
  cases scale == 0 <;> rfl

omit [Scalar α] in
/-- **The blocks that are cut are those of the layout.** -/
theorem cutBlocks_eq {r : Mat α} {c : Columns} {dims : KeyMap ℕ} {l : Layout} {start : ℕ}
    (hfirst : ∀ e ∈ l.ranges start, c.first.get? e.1 = some e.2.1)
    (hdims : ∀ e ∈ l, dims.get? e.1 = some e.2) (i h : ℕ) :
    cutBlocks r c dims i h (l.map (·.1)) = blocksOf r i h l start := by
  induction l generalizing start with
  | nil => rfl
  | cons e l ih =>
    obtain ⟨hfirst, hfirsts⟩ := List.forall_mem_cons.mp hfirst
    obtain ⟨hdim, hdims⟩ := List.forall_mem_cons.mp hdims
    rw [List.map_cons, cutBlocks, hfirst, hdim, ih hfirsts hdims, blocksOf, blocksOf, Layout.ranges,
      List.mapM_cons]
    cases hb : r.block? i start h e.2 <;> simp [hb]

omit [Scalar α] in
theorem block?_columns {m : Mat α} {w : ℕ} (hw : w ≤ m.cols) :
    m.block? 0 0 m.height w = some (m.columns 0 w) := by
  have hrows : m.rowsFrom 0 m.height = m := by
    obtain ⟨w, rows, hw⟩ := m
    simp [Mat.rowsFrom, Mat.height]
  rw [Mat.block?, if_pos (by omega), hrows]

end Read

/-! ### One variable -/

/-- **A variable is eliminated with numbered columns as with lists**, and so nothing is looked up or
written out of range. -/
theorem eliminateOneIndexed_eq [Scalar α] {k : Key} {dim : ℕ} {fs : List (GaussianFactor α)}
    {dims : KeyMap ℕ} (hc : Consistent dims fs) (hk : dims.get? k = some dim)
    (o : EliminationOrder) :
    eliminateOneIndexed k dim fs dims o = eliminateOne k dim fs dims o := by
  obtain ⟨others, ho⟩ := exists_others hc k o
  obtain ⟨hkeys, hdims⟩ := widths_of_ok ho
  have hnodup := nodup_layout k dim ho
  obtain ⟨c, hnumber, hcols⟩ := exists_numberColumns (α := α) hnodup hdims
  have hcount : c.count = dim + Layout.width others := hcols.count
  have hwidth : Layout.width ((k, dim) :: others) = dim + Layout.width others := rfl
  have hfirst : ∀ e ∈ Layout.ranges dim others, c.first.get? e.1 = some e.2.1 := fun e he =>
    hcols.first e (List.mem_cons_of_mem _ (by rwa [Nat.zero_add]))
  have hwrite := writeFactors_eq hcols hnodup (inLayout ho hc hk)
  have hblock :=
    block?_columns (m := stack ((k, dim) :: others) fs) (w := dim + Layout.width others)
      (Nat.le_succ _)
  have hheight := Mat.height_triangular (stack ((k, dim) :: others) fs)
  have hstack : (stack ((k, dim) :: others) fs).cols = dim + Layout.width others + 1 := rfl
  have htriangular : (stack ((k, dim) :: others) fs).triangular.cols =
      dim + Layout.width others + 1 := rfl
  rw [height_stack] at hblock hheight
  rw [hstack] at hheight
  have hwidths := widths_eq_pure ho
  rw [hcount] at hwrite
  rw [← hkeys] at hwidths
  unfold eliminateOneIndexed eliminateOne
  simp only [← hkeys, hwidths, hnumber, pure_bind, hcount, hwidth]
  by_cases hrows : GaussianGraph.height ⟨fs⟩ < dim
  · rw [if_pos hrows, if_pos hrows]
  simp only [if_neg hrows, hwrite, hblock, Logged.fromOption_some, pure_bind]
  generalize (stack ((k, dim) :: others) fs).triangular = r at *
  generalize ((stack ((k, dim) :: others) fs).columns 0 (dim + Layout.width others)).amax = scale
  generalize GaussianGraph.height ⟨fs⟩ = rows at *
  rw [isNegligible?_eq (n := dim) (by omega) (by omega), Logged.fromOption_some, pure_bind]
  by_cases hpivot : isNegligible r dim scale = true
  · rw [if_pos hpivot, if_pos hpivot]
  have hupper : 0 + dim ≤ r.height := by omega
  have hlower : dim + (min rows (dim + Layout.width others) - dim) ≤ r.height := by omega
  obtain ⟨diagonal, hdiagonal⟩ := exists_block? hupper (j := 0) (w := dim) (by omega)
  obtain ⟨parents, hparents⟩ := exists_blocksOf hupper (l := others) (j := dim) (by omega)
  obtain ⟨blocks, hblocks⟩ := exists_blocksOf hlower (l := others) (j := dim) (by omega)
  simp only [if_neg hpivot, cutBlocks_eq hfirst hdims, hdiagonal, hparents, hblocks,
    Logged.fromOption_some, pure_bind, List.isEmpty_map, keys_of_blocksOf hblocks]

end Elimination

end Smoothing
