import Smoothing.Linear.NormalEquations

/-!
# Assembly by triplets

`NormalEquations.assemble` lays the rows of the factors out by lists. Here the same is computed with
numbers: every variable is given its range of columns in a table, the factors take their rows from a
counter, and the entries that are not zero are collected with their places and put into a matrix
that is stored by columns. Whatever is looked up or put out of range stops the computation.
-/

namespace Smoothing

variable {α : Type}

structure Triplet (α : Type) where
  row : Nat
  col : Nat
  value : α

/-- A matrix by its columns, without the entries that were never put. -/
structure SparseMat (α : Type) where
  height : Nat
  columns : Array (SparseVec α)

namespace NormalEquations

structure Ranges where
  of : KeyMap (Nat × Nat)
  count : Nat

def Ranges.add (c : Ranges) (k : Key) (w : Nat) : Ranges :=
  ⟨c.of.insert k (c.count, w), c.count + w⟩

def numberRanges (dims : KeyMap Nat) : List Key → Ranges → LinearRun α Ranges
  | [], c => pure c
  | k :: ks, c =>
    match dims.get? k with
    | none => (LinearError.degenerate k).stop
    | some w => numberRanges dims ks (c.add k w)

end NormalEquations

variable [Scalar α]

/-- The vector with an entry at a place. What is there already is added to. -/
def SparseVec.put (i : Nat) (x : α) : SparseVec α → SparseVec α
  | [] => [(i, x)]
  | (j, y) :: v =>
    if i < j then (i, x) :: (j, y) :: v
    else if i = j then (j, y + x) :: v
    else (j, y) :: put i x v

namespace SparseMat

def put? (m : SparseMat α) (t : Triplet α) : Option (SparseMat α) :=
  if t.row < m.height ∧ t.col < m.columns.size then
    some { m with columns := m.columns.modify t.col (SparseVec.put t.row t.value) }
  else none

def ofTriplets? (h w : Nat) (ts : List (Triplet α)) : Option (SparseMat α) :=
  ts.foldlM put? ⟨h, Array.replicate w []⟩

def ofMat (m : Mat α) : SparseMat α :=
  ⟨m.height, ((List.range m.cols).map fun j => SparseVec.ofList (m.rows.map (·.get j))).toArray⟩

end SparseMat

namespace NormalEquations

/-- The entries of a column of a block that are not zero. The block starts at a row and a column. -/
def columnTriplets (row col : Nat) (m : Mat α) (j : Nat) : List (Triplet α) :=
  (List.range m.height).filterMap fun i =>
    if m.get i j == 0 then none else some ⟨row + i, col + j, m.get i j⟩

def blockTriplets (row col : Nat) (m : Mat α) : List (Triplet α) :=
  (List.range m.cols).flatMap (columnTriplets row col m)

def factorTriplets? (c : Ranges) (row : Nat) :
    List (Key × Mat α) → Option (List (Triplet α))
  | [] => some []
  | (k, m) :: ts => do
    let r ← c.of.get? k
    let rest ← factorTriplets? c row ts
    return blockTriplets row r.1 m ++ rest

/-- Writes the negated entries of a right-hand side into a vector, from a place on. -/
def writeResidual? (i : Nat) : List α → Vec α → Option (Vec α)
  | [], r => some r
  | b :: bs, r => if i < r.size then writeResidual? (i + 1) bs ⟨r.coords.set i (-b)⟩ else none

/-- Collects the entries of factors, which take their rows one after the other, and writes their
residuals. -/
def layFactors? (c : Ranges) :
    Nat → List (GaussianFactor α) → List (Triplet α) → Vec α → Option (List (Triplet α) × Vec α)
  | _, [], ts, r => some (ts, r)
  | row, f :: fs, ts, r => do
    let new ← factorTriplets? c row f.terms
    let r ← writeResidual? row f.rhs.coords r
    layFactors? c (row + f.height) fs (ts ++ new) r

structure Indexed (α : Type) where
  jacobian : SparseMat α
  residual : Vec α
  ranges : KeyMap (Nat × Nat)

/-- The same as lists: the entries that are not zero and the ranges of the layout. -/
def Indexed.ofAssembled (a : Assembled α) : Indexed α :=
  ⟨.ofMat a.jacobian, a.residual, KeyMap.ofList (a.layout.ranges 0)⟩

/-- Lays a problem out in the columns of an order, with numbered columns and rows. -/
def assembleIndexed (g : GaussianGraph α) (o : EliminationOrder) : LinearRun α (Indexed α) := do
  let dims ← g.dims
  match dims.keys.find? fun k => !o.contains k with
  | some k => (LinearError.ordering (.uncovered k)).stop
  | none =>
    let c ← numberRanges dims o.keys ⟨KeyMap.empty, 0⟩
    let (ts, r) ← Logged.fromOption (layFactors? c 0 g.factors [] (Vec.zero g.height))
    let jacobian ← Logged.fromOption (SparseMat.ofTriplets? g.height c.count ts)
    return ⟨jacobian, r, c.of⟩

end NormalEquations

end Smoothing
