import Mathlib
import Smoothing.Simulation.Trajectory

/-!
# Paths and the pairs that are compared

The path over a grid visits every cell once: `Grid.index` is the place of a cell (`index_cell`,
`cell_index`), and a step leads to a neighbouring cell (`neighbours_cell_succ`). So what is compared
can be said in terms of cells.

* On a grid these are the pairs of places one above the other in a column with an even number,
unless one follows the other, and each pair comes once: `Grid.mem_closures_iff`,
`Grid.nodup_closures`.
* On a ring no pair compares a place with itself, and no two pairs compare the same places:
`Ring.apart_of_mem_closures`, `Ring.pairwise_closures`.

Differences below zero never occur on the way: the same computations with differences that may fail
have these answers (`Grid.cell?_eq`, `Topology.closures?_eq`).
-/

namespace Smoothing

/-- The difference of two numbers, if it is not below zero. -/
def minus? (a b : ℕ) : Option ℕ := if b ≤ a then some (a - b) else none

theorem minus?_eq_some {a b : ℕ} (h : b ≤ a) : minus? a b = some (a - b) := if_pos h

/-- Places of cells on a grid: column and row. -/
abbrev Cell := ℕ × ℕ

namespace Grid

/-- The number of steps from the side where a row begins to a column, and back: backwards from the
last column. -/
def turned (size row column : ℕ) : ℕ := if isBackwards row then size - 1 - column else column

section Cells
variable {size row column i : ℕ}

theorem cell_eq (size i : ℕ) : cell size i = (turned size (i / size) (i % size), i / size) := rfl

theorem index_eq (size row column : ℕ) :
    index size row column = row * size + turned size row column :=
  rfl

theorem turned_lt (h : column < size) : turned size row column < size := by
  unfold turned
  split_ifs <;> omega

theorem turned_turned (h : column < size) : turned size row (turned size row column) = column := by
  unfold turned
  split_ifs <;> omega

theorem isBackwards_succ (row : ℕ) : isBackwards (row + 1) = !isBackwards row := by
  unfold isBackwards
  rcases Nat.mod_two_eq_zero_or_one row with h | h <;> simp [Nat.add_mod, h]

theorem cell_index (h : column < size) : cell size (index size row column) = (column, row) := by
  have hsize : 0 < size := Nat.zero_lt_of_lt h
  have hdiv : index size row column / size = row := by
    rw [index_eq, Nat.mul_comm, Nat.mul_add_div hsize, Nat.div_eq_of_lt (turned_lt h), Nat.add_zero]
  have hmod : index size row column % size = turned size row column := by
    rw [index_eq, Nat.mul_comm, Nat.mul_add_mod, Nat.mod_eq_of_lt (turned_lt h)]
  rw [cell_eq, hdiv, hmod, turned_turned h]

theorem index_cell (hsize : 0 < size) (i : ℕ) : index size (cell size i).2 (cell size i).1 = i := by
  rw [cell_eq, index_eq, turned_turned (Nat.mod_lt i hsize)]
  exact Nat.div_add_mod' i size

theorem cell_lt (h : i < size * size) : (cell size i).1 < size ∧ (cell size i).2 < size := by
  have hsize : 0 < size := Nat.pos_of_mul_pos_left (Nat.zero_lt_of_lt h)
  exact ⟨turned_lt (Nat.mod_lt i hsize), Nat.div_lt_of_lt_mul h⟩

theorem index_lt (hrow : row < size) (hcolumn : column < size) :
    index size row column < size * size := by
  have hplace : turned size row column < size := turned_lt hcolumn
  have hrows : row * size + size ≤ size * size := by
    rw [← Nat.succ_mul]
    exact Nat.mul_le_mul_right size hrow
  rw [index_eq]
  omega

/-- Cells of one row or one column with nothing between them. -/
def Neighbours (p q : Cell) : Prop :=
  p.2 = q.2 ∧ (q.1 = p.1 + 1 ∨ p.1 = q.1 + 1) ∨ p.1 = q.1 ∧ (q.2 = p.2 + 1 ∨ p.2 = q.2 + 1)

/-- **A step on the path leads to a neighbouring cell.** -/
theorem neighbours_cell_succ (hsize : 0 < size) (i : ℕ) :
    Neighbours (cell size i) (cell size (i + 1)) := by
  have hmod := Nat.mod_lt i hsize
  have hsplit := Nat.div_add_mod i size
  rw [cell_eq, cell_eq]
  by_cases hend : i % size + 1 = size
  · -- the row ends, and the next one begins in the same column
    obtain ⟨hdiv, hzero⟩ : (i + 1) / size = i / size + 1 ∧ (i + 1) % size = 0 :=
      (Nat.div_mod_unique hsize).mpr ⟨by rw [Nat.mul_add_one]; omega, hsize⟩
    refine .inr ⟨?_, .inl hdiv⟩
    rw [hdiv, hzero]
    simp only [turned, isBackwards_succ]
    cases isBackwards (i / size) with
    | false =>
      change i % size = size - 1 - 0
      omega
    | true =>
      change size - 1 - i % size = 0
      omega
  · obtain ⟨hdiv, hsucc⟩ : (i + 1) / size = i / size ∧ (i + 1) % size = i % size + 1 :=
      (Nat.div_mod_unique hsize).mpr ⟨by omega, by omega⟩
    refine .inl ⟨hdiv.symm, ?_⟩
    rw [hdiv, hsucc]
    simp only [turned]
    cases isBackwards (i / size) with
    | false => exact .inl rfl
    | true =>
      change size - 1 - (i % size + 1) = size - 1 - i % size + 1 ∨
        size - 1 - i % size = size - 1 - (i % size + 1) + 1
      omega

end Cells

/-! ### Comparisons on a grid -/

/-- Cells of a column with an even number, one right above the other. -/
def Stacked (p q : Cell) : Prop := p.1 = q.1 ∧ p.1 % 2 = 0 ∧ (q.2 = p.2 + 1 ∨ p.2 = q.2 + 1)

section Closures
variable {size row column a b : ℕ}

theorem mem_evens : column ∈ evens size ↔ column < size ∧ column % 2 = 0 := by
  simp [evens]

theorem closure?_eq_some_iff : closure? size row column = some (a, b) ↔
    a = index size row column ∧ b = index size (row + 1) column ∧ 1 < b - a := by
  unfold closure?
  dsimp only
  split_ifs with h
  · simp only [Option.some.injEq, Prod.mk.injEq]
    constructor
    · rintro ⟨rfl, rfl⟩
      exact ⟨rfl, rfl, h⟩
    · rintro ⟨rfl, rfl, -⟩
      exact ⟨rfl, rfl⟩
  · refine iff_of_false nofun ?_
    rintro ⟨rfl, rfl, hlt⟩
    exact h hlt

theorem mem_closures : (a, b) ∈ closures size ↔
    ∃ row column, row + 1 < size ∧ (column < size ∧ column % 2 = 0) ∧
    closure? size row column = some (a, b) := by
  simp only [closures, List.mem_flatMap, List.mem_range, List.mem_filterMap, mem_evens]
  constructor
  · rintro ⟨row, hrow, column, hcolumn, h⟩
    exact ⟨row, column, by omega, hcolumn, h⟩
  · rintro ⟨row, column, hrow, hcolumn, h⟩
    exact ⟨row, by omega, column, hcolumn, h⟩

/-- **The pairs that are compared on a grid** are the places one above the other in a column with an
even number, unless one follows the other. -/
theorem mem_closures_iff (hsize : 0 < size) : (a, b) ∈ closures size ↔
    a < b ∧ b < size * size ∧ Stacked (cell size a) (cell size b) ∧ 1 < b - a := by
  rw [mem_closures]
  constructor
  · rintro ⟨row, column, hrow, ⟨hcolumn, heven⟩, h⟩
    obtain ⟨rfl, rfl, hlt⟩ := closure?_eq_some_iff.mp h
    refine ⟨by omega, index_lt hrow hcolumn, ?_, hlt⟩
    rw [cell_index hcolumn, cell_index hcolumn]
    exact ⟨rfl, heven, .inl rfl⟩
  · rintro ⟨hab, hb, ⟨hcolumn, heven, hrow⟩, hlt⟩
    have hle : (cell size a).2 ≤ (cell size b).2 := Nat.div_le_div_right hab.le
    have hrow : (cell size b).2 = (cell size a).2 + 1 := by omega
    refine ⟨(cell size a).2, (cell size a).1, hrow ▸ (cell_lt hb).2,
      ⟨hcolumn ▸ (cell_lt hb).1, heven⟩, ?_⟩
    refine closure?_eq_some_iff.mpr ⟨(index_cell hsize a).symm, ?_, hlt⟩
    rw [hcolumn, ← hrow, index_cell hsize]

/-- **No pair is compared twice on a grid.** -/
theorem nodup_closures (size : ℕ) : (closures size).Nodup := by
  -- the first place of a pair tells where it comes from
  have hcell : ∀ {row column a b}, column ∈ evens size → closure? size row column = some (a, b) →
      cell size a = (column, row) := by
    intro row column a b hcolumn h
    rw [(closure?_eq_some_iff.mp h).1, cell_index (mem_evens.mp hcolumn).1]
  have hevens : (evens size).Nodup := List.nodup_range.filter _
  refine List.nodup_flatMap.mpr ⟨fun row _ => ?_, List.nodup_range.imp fun {row row'} hne => ?_⟩
  · refine List.pairwise_filterMap.mpr (hevens.imp_of_mem fun {c c'} hc hc' hne => ?_)
    rintro ⟨a, b⟩ h _ h' rfl
    exact hne (congrArg Prod.fst ((hcell hc h).symm.trans (hcell hc' h')))
  · rintro ⟨a, b⟩ h h'
    obtain ⟨c, hc, h⟩ := List.mem_filterMap.mp h
    obtain ⟨c', hc', h'⟩ := List.mem_filterMap.mp h'
    exact hne (congrArg Prod.snd ((hcell hc h).symm.trans (hcell hc' h')))

end Closures

end Grid

/-! ### Comparisons on a ring -/

namespace Ring

variable {size : ℕ}

theorem mem_closures {ab : ℕ × ℕ} : ab ∈ closures size ↔
    ab = (size - 1, 0) ∨ ∃ i ∈ starts size, i + size / 2 < size - 1 ∧ ab = (i, i + size / 2) := by
  simp only [closures, List.mem_cons, List.mem_map, List.mem_filter, decide_eq_true_eq, and_assoc,
    eq_comm (a := ab)]

/-- **Every pair compares two places of the ring.** -/
theorem apart_of_mem_closures (hsize : 2 ≤ size) {ab : ℕ × ℕ} (h : ab ∈ closures size) :
    ab.1 < size ∧ ab.2 < size ∧ ab.1 ≠ ab.2 := by
  rcases mem_closures.mp h with rfl | ⟨i, -, hi, rfl⟩
  · dsimp only
    omega
  · dsimp only
    omega

/-- **No two pairs compare the same places**, in either order. -/
theorem pairwise_closures (hsize : 2 ≤ size) :
    (closures size).Pairwise fun p q => p ≠ q ∧ p ≠ q.swap := by
  refine List.pairwise_cons.mpr ⟨fun q hq => ?_, List.pairwise_map.mpr ?_⟩
  · obtain ⟨i, hi, rfl⟩ := List.mem_map.mp hq
    have hlt := of_decide_eq_true (List.mem_filter.mp hi).2
    simp only [Prod.swap_prod_mk, ne_eq, Prod.mk.injEq]
    omega
  · refine ((List.nodup_range.filter _).filter _).imp fun {i j} hne => ?_
    simp only [Prod.swap_prod_mk, ne_eq, Prod.mk.injEq]
    omega

end Ring

/-! ### Differences that are not below zero -/

theorem mapM_eq_some_map {α β : Type} {f : α → Option β} {g : α → β} {l : List α}
    (h : ∀ a ∈ l, f a = some (g a)) : l.mapM f = some (l.map g) := by
  induction l with
  | nil => rfl
  | cons a l ih =>
    obtain ⟨ha, hl⟩ := List.forall_mem_cons.mp h
    rw [List.mapM_cons, ha, ih hl]
    rfl

theorem ico_one (n : ℕ) : List.Ico 1 n = (List.range (n - 1)).map (· + 1) := by
  rw [List.Ico, List.range'_eq_map_range]
  simp only [Nat.add_comm 1]

namespace Grid

/-- The number of steps to a column, and back, with differences that may fail. -/
def turned? (size row column : ℕ) : Option ℕ :=
  if isBackwards row then do
    let last ← minus? size 1
    minus? last column
  else some column

/-- The cell at a place, with differences that may fail. -/
def cell? (size i : ℕ) : Option Cell := do
  let column ← turned? size (i / size) (i % size)
  return (column, i / size)

/-- The place of a cell, with differences that may fail. -/
def index? (size row column : ℕ) : Option ℕ := do
  let place ← turned? size row column
  return row * size + place

/-- The places in a column of a row and of the one before, unless one follows the other, with
differences that may fail. -/
def compared? (size row column : ℕ) : Option (Option (ℕ × ℕ)) := do
  let before ← minus? row 1
  let a ← index? size before column
  let b ← index? size row column
  let steps ← minus? b a
  return if steps > 1 then some (a, b) else none

/-- The pairs of places that are compared on a grid, with differences that may fail. -/
def closures? (size : ℕ) : Option (List (ℕ × ℕ)) := do
  let found ← (List.Ico 1 size).mapM fun row => (evens size).mapM (compared? size row)
  return found.flatten.reduceOption

section Differences
variable {size row column : ℕ}

theorem turned?_eq (h : column < size) :
    turned? size row column = some (turned size row column) := by
  unfold turned? turned
  split_ifs
  · rw [minus?_eq_some (by omega)]
    exact minus?_eq_some (by omega)
  · rfl

theorem cell?_eq (hsize : 0 < size) (i : ℕ) : cell? size i = some (cell size i) := by
  rw [cell?, turned?_eq (Nat.mod_lt i hsize)]
  rfl

theorem index?_eq (h : column < size) : index? size row column = some (index size row column) := by
  rw [index?, turned?_eq h]
  rfl

theorem index_le_index_succ (h : column < size) :
    index size row column ≤ index size (row + 1) column := by
  have hplace : turned size row column < size := turned_lt h
  rw [index_eq, index_eq, Nat.succ_mul]
  omega

theorem compared?_eq (h : column < size) :
    compared? size (row + 1) column = some (closure? size row column) := by
  have hrow : minus? (row + 1) 1 = some row := minus?_eq_some (Nat.le_add_left 1 row)
  simp only [compared?, hrow, Option.bind_eq_bind, Option.bind_some, index?_eq h,
    minus?_eq_some (index_le_index_succ h)]
  rfl

theorem closures?_eq (size : ℕ) : closures? size = some (closures size) := by
  have hrow : ∀ row ∈ List.range (size - 1),
      ((fun row => (evens size).mapM (compared? size row)) ∘ (· + 1)) row =
      some ((evens size).map (closure? size row)) :=
    fun row _ => mapM_eq_some_map fun column hcolumn => compared?_eq (mem_evens.mp hcolumn).1
  rw [closures?, ico_one, List.mapM_map, mapM_eq_some_map hrow]
  refine congrArg some ?_
  simp only [List.reduceOption, List.filterMap_flatten, List.map_map, Function.comp_def,
    List.filterMap_map, id_eq, closures, List.flatMap]

end Differences

end Grid

namespace Ring

/-- The pairs of places that are compared on a ring, with differences that may fail. -/
def closures? (size : ℕ) : Option (List (ℕ × ℕ)) := do
  let last ← minus? size 1
  return (last, 0) :: ((starts size).filter fun i => i + size / 2 < last).map fun i =>
    (i, i + size / 2)

theorem closures?_eq {size : ℕ} (hsize : 0 < size) : closures? size = some (closures size) := by
  rw [closures?, minus?_eq_some hsize]
  rfl

end Ring

/-- The pairs of places that are compared, with differences that may fail. -/
def Topology.closures? : Topology → ℕ → Option (List (ℕ × ℕ))
  | grid, size => Grid.closures? size
  | ring, size => Ring.closures? size

theorem Topology.closures?_eq (t : Topology) {size : ℕ} (hsize : 0 < size) :
    t.closures? size = some (t.closures size) := by
  cases t with
  | grid => exact Grid.closures?_eq size
  | ring => exact Ring.closures?_eq hsize

end Smoothing
