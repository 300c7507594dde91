import Smoothing.Sparse.FillOrder
import Smoothing.Sparse.System

/-!
# Sparse factors

A sparse symmetric positive definite matrix is written as `L Lᵀ` with a lower triangular `L`, row by
row. Of a row only the columns are used in which it has an entry. These are found by going up from
the entries of the matrix: from a column to the row of its first entry below the diagonal, and from
there on as long as that is above the row at hand. A row is finished if its columns leave nothing of
it, so the product of the factors is the matrix, whatever columns were found.

The unknowns are taken in an order with little fill. A system is solved by substitution, forwards
with `L` and backwards with `Lᵀ`.
-/

namespace Smoothing

structure LowerColumn (α : Type) where
  diagonal : α
  /-- The entries below the diagonal with their rows, the last row first. -/
  below : SparseVec α
  /-- The row of the first entry below the diagonal. -/
  next? : Option Nat

abbrev LowerFactor (α : Type) := Array (LowerColumn α)

namespace LowerFactor

variable {α : Type}

/-! ### The columns of a row -/

/-- Goes up from a column, as long as there are columns that are not found yet, and puts them before
those that are. -/
def climb (f : LowerFactor α) (found : List Nat) : Nat → List Nat → Nat → List Nat
  | 0, path, _ => path.reverse ++ found
  | steps + 1, path, j =>
    if f.size ≤ j || path.contains j || found.contains j then path.reverse ++ found
    else match f[j]?.bind LowerColumn.next? with
      | none => (j :: path).reverse ++ found
      | some i => climb f found steps (j :: path) i

/-- The columns in which the next row has an entry, given those in which the matrix has one. A
column comes before those that it leads to. -/
def columnsFrom (f : LowerFactor α) (js : List Nat) : List Nat :=
  js.foldl (fun found j => climb f found f.size [] j) []

variable [Scalar α]

/-! ### Factors -/

structure RowStep (α : Type) where
  left : Array α
  pivot : α
  factor : LowerFactor α

def RowStep.useColumn (row : Nat) (s : RowStep α) (j : Nat) : RowStep α :=
  match s.factor[j]? with
  | none => s
  | some column =>
    let l := s.left.getD j 0 * (1 / column.diagonal)
    { left := (column.below.foldl (fun left e => left.modify e.1 (· - e.2 * l))
      s.left).setIfInBounds j 0
      pivot := s.pivot - l * l
      factor := s.factor.modify j fun c =>
        { c with below := (row, l) :: c.below, next? := c.next?.or (some row) } }

/-- The factor with one more row, given the entries of the matrix before the diagonal and on it. If
the pivot is not positive, there is none, and its place is told. -/
def addRow (f : LowerFactor α) (row : SparseVec α × α) : Except Nat (LowerFactor α) :=
  let left := SparseVec.addScaledTo 1 row.1 (Array.replicate f.size 0)
  let s := (f.columnsFrom (row.1.map Prod.fst)).foldl (RowStep.useColumn f.size) ⟨left, row.2, f⟩
  if s.left.all (· == 0) && decide (0 < s.pivot) then
    .ok (s.factor.push ⟨Scalar.sqrt s.pivot, [], none⟩)
  else .error f.size

/-- The factor of a matrix given by its rows, or the place of the first pivot that is not
positive. -/
def ofRows (rows : List (SparseVec α × α)) : Except Nat (LowerFactor α) :=
  rows.foldlM addRow #[]

/-! ### Substitution -/

/-- One coordinate of the solution of `L x = b`, taken out of the coordinates after it. -/
def forwardStep (y : Array α) (column : LowerColumn α × Nat) : Array α :=
  let x := y.getD column.2 0 * (1 / column.1.diagonal)
  (column.1.below.foldl (fun y e => y.modify e.1 (· - e.2 * x)) y).setIfInBounds column.2 x

def forward (f : LowerFactor α) (b : Array α) : Array α :=
  f.toList.zipIdx.foldl forwardStep b

/-- The sum of a list in four strands: the terms go to them in turn, and those that are left over at
the end to the first. -/
def strandSum (a b c d : α) : List α → α
  | p :: q :: r :: s :: rest => strandSum (a + p) (b + q) (c + r) (d + s) rest
  | rest => (rest.foldl (· + ·) a + b) + (c + d)

def backwardStep (column : LowerColumn α × Nat) (x : Array α) : Array α :=
  let known := column.1.below.reverse.map fun e => e.2 * x.getD e.1 0
  x.setIfInBounds column.2 ((x.getD column.2 0 - strandSum 0 0 0 0 known) * (1 / column.1.diagonal))

def backward (f : LowerFactor α) (b : Array α) : Array α :=
  f.toList.zipIdx.foldr backwardStep b

end LowerFactor

namespace SparseSystem

variable {α : Type} [Scalar α]

/-- The part of a row before the diagonal and the diagonal entry, where the unknowns are in other
places. -/
def rowAt (s : SparseSystem α) (place : Nat → Nat) (i : Nat) : SparseVec α × α :=
  let entries := s.columns.getD i []
  ((entries.filter fun e => place e.1 < place i).map fun e => (place e.1, e.2),
    (entries.lookup i).getD 0)

/-- The solution of a system whose matrix is positive definite, or the place of the first pivot that
is not positive, in the order of the elimination. -/
def solve (s : SparseSystem α) : Except Nat (Vec α) := do
  let order := FillOrder.ofNeighbours s.size s.neighbours
  let places := ((List.range s.size).map order.idxOf).toArray
  let place (i : Nat) : Nat := places.getD i 0
  let factor ← LowerFactor.ofRows (order.map (s.rowAt place))
  let b := (order.map fun i => s.rhs.getD i 0).toArray
  let x := factor.backward (factor.forward b)
  return ⟨(List.range s.size).map fun i => x.getD (place i) 0⟩

end SparseSystem

end Smoothing
