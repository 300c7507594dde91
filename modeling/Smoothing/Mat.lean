import Smoothing.Vec

/-!
# Matrices

Dense matrices as lists of rows. That all rows have the same length is part of the type, so a matrix
without rows still has a width. Products with a matrix or vector on the right are sums from the
left, in the order of the columns; a transposed matrix times a vector has the inner products with
the columns.
-/

namespace Smoothing

structure Mat (α : Type) where
  cols : Nat
  rows : List (Vec α)
  width : ∀ r ∈ rows, r.size = cols

namespace Mat

variable {α : Type}

def height (m : Mat α) : Nat := m.rows.length

def empty (n : Nat) : Mat α := ⟨n, [], by simp⟩

instance : Inhabited (Mat α) := ⟨empty 0⟩

instance [BEq α] : BEq (Mat α) := ⟨fun m n => m.cols == n.cols && m.rows == n.rows⟩

def ofFn (h w : Nat) (f : Nat → Nat → α) : Mat α where
  cols := w
  rows := (List.range h).map fun i => ⟨(List.range w).map (f i)⟩
  width := by simp [Vec.size]

def map (f : α → α) (m : Mat α) : Mat α where
  cols := m.cols
  rows := m.rows.map (Vec.map f)
  width := by
    simp only [List.mem_map, forall_exists_index, and_imp, forall_apply_eq_imp_iff₂]
    intro r hr
    simpa [Vec.map, Vec.size] using m.width r hr

theorem exists_of_mem_zipWith {f : Vec α → Vec α → Vec α} {us vs : List (Vec α)} {r : Vec α}
    (h : r ∈ List.zipWith f us vs) : ∃ u ∈ us, ∃ v ∈ vs, r = f u v := by
  induction us generalizing vs with
  | nil => simp at h
  | cons u us ih =>
    cases vs with
    | nil => simp at h
    | cons v vs =>
      rcases List.mem_cons.1 h with rfl | h
      · exact ⟨u, List.mem_cons_self, v, List.mem_cons_self, rfl⟩
      · obtain ⟨u', hu, v', hv, rfl⟩ := ih h
        exact ⟨u', List.mem_cons_of_mem _ hu, v', List.mem_cons_of_mem _ hv, rfl⟩

def zipWith (f : α → α → α) (m n : Mat α) : Mat α where
  cols := min m.cols n.cols
  rows := List.zipWith (Vec.zipWith f) m.rows n.rows
  width r hr := by
    obtain ⟨u, hu, v, hv, rfl⟩ := exists_of_mem_zipWith hr
    rw [Vec.size_zipWith, m.width u hu, n.width v hv]

def columns (m : Mat α) (start len : Nat) : Mat α where
  cols := min len (m.cols - start)
  rows := m.rows.map (·.slice start len)
  width r hr := by
    obtain ⟨u, hu, rfl⟩ := List.mem_map.1 hr
    rw [Vec.size_slice, m.width u hu]

def rowsFrom (m : Mat α) (start len : Nat) : Mat α where
  cols := m.cols
  rows := (m.rows.drop start).take len
  width r hr := m.width r (List.mem_of_mem_drop (List.mem_of_mem_take hr))

/-- The block of `h` rows and `w` columns whose upper left entry is at row `i` and column `j`, if it
lies within the matrix. -/
def block? (m : Mat α) (i j h w : Nat) : Option (Mat α) :=
  if i + h ≤ m.height ∧ j + w ≤ m.cols then some ((m.rowsFrom i h).columns j w) else none

def beside (m n : Mat α) : Mat α where
  cols := m.cols + n.cols
  rows := List.zipWith Vec.append m.rows n.rows
  width r hr := by
    obtain ⟨u, hu, v, hv, rfl⟩ := exists_of_mem_zipWith hr
    exact (Vec.size_append u v).trans (by rw [m.width u hu, n.width v hv])

variable [Scalar α]

def ofRows (w : Nat) (rows : List (Vec α)) : Mat α where
  cols := w
  rows := rows.map (Vec.fit w)
  width := by simp

def get (m : Mat α) (i j : Nat) : α := (m.rows.getD i ⟨[]⟩).get j

def zero (h w : Nat) : Mat α where
  cols := w
  rows := List.replicate h (Vec.zero w)
  width := by simp +contextual [List.mem_replicate]

def diagonal (d : Vec α) : Mat α := ofFn d.size d.size fun i j => if i = j then d.get i else 0

def identity (n : Nat) : Mat α := ofFn n n fun i j => if i = j then 1 else 0

instance : Neg (Mat α) := ⟨map (- ·)⟩
instance : Add (Mat α) := ⟨zipWith (· + ·)⟩
instance : Sub (Mat α) := ⟨zipWith (· - ·)⟩

def scale (m : Mat α) (c : α) : Mat α := m.map (· * c)

def columnsOf : Nat → List (List α) → List (Vec α)
  | 0, _ => []
  | n + 1, rows => ⟨rows.map (·.headD 0)⟩ :: columnsOf n (rows.map List.tail)

theorem size_of_mem_columnsOf {n : Nat} {rows : List (List α)} :
    ∀ c ∈ columnsOf n rows, c.size = rows.length := by
  induction n generalizing rows with
  | zero => simp [columnsOf]
  | succ n ih =>
    intro c hc
    rcases List.mem_cons.1 hc with rfl | hc
    · simp
    · simpa using ih c hc

@[simp] theorem length_columnsOf (n : Nat) (rows : List (List α)) :
    (columnsOf n rows).length = n := by
  induction n generalizing rows with
  | zero => rfl
  | succ n ih => simp [columnsOf, ih]

def columnList (m : Mat α) : List (Vec α) := columnsOf m.cols (m.rows.map Vec.coords)

@[simp] theorem length_columnList (m : Mat α) : m.columnList.length = m.cols := by
  simp [columnList]

def transpose (m : Mat α) : Mat α where
  cols := m.height
  rows := m.columnList
  width := by
    intro r hr
    simpa [height] using size_of_mem_columnsOf r hr

def mulVec (m : Mat α) (x : Vec α) : Vec α := ⟨m.rows.map (·.apply x)⟩

/-- The transposed matrix times a vector: its inner product with each column. -/
def transposeMulVec (m : Mat α) (e : Vec α) : Vec α := ⟨m.columnList.map (·.dot e)⟩

def mul (m n : Mat α) : Mat α :=
  let columns := n.columnList
  { cols := n.cols
    rows := m.rows.map fun r => ⟨columns.map r.apply⟩
    width := by simp [Vec.size, columns] }

instance : Mul (Mat α) := ⟨mul⟩

def entries (m : Mat α) : List α := m.columnList.flatMap Vec.coords

def allFinite (m : Mat α) : Bool := m.rows.all Vec.allFinite

/-- The largest absolute value of an entry, found column by column. -/
def amax (m : Mat α) : α := Vec.largest (m.entries.map Scalar.abs)

end Mat

end Smoothing
