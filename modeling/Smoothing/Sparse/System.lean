import Smoothing.Mat

/-!
# Sparse symmetric systems

A least squares problem `‖A x + r‖²` is solved by its normal equations `AᵀA x = -Aᵀ r`. They are
stored by columns, without the entries no row of `A` contributes to. Zeros of `A` contribute
nothing, also where the residual is not an ordinary number.
-/

namespace Smoothing

/-- Entries with their places, by increasing place. A place that is not listed holds a zero. -/
abbrev SparseVec (α : Type) := List (Nat × α)

namespace SparseVec

variable {α : Type} [Scalar α]

def ofList (xs : List α) : SparseVec α :=
  (xs.zipIdx.filter fun e => !(e.1 == 0)).map Prod.swap

/-- The vector with a number added at a place, which is listed from then on. -/
def addAt (i : Nat) (x : α) : SparseVec α → SparseVec α
  | [] => [(i, 0 + x)]
  | (j, y) :: v =>
    if i < j then (i, 0 + x) :: (j, y) :: v
    else if i = j then (j, y + x) :: v
    else (j, y) :: addAt i x v

def addScaled (c : α) (u v : SparseVec α) : SparseVec α :=
  u.foldl (fun v e => addAt e.1 (c * e.2) v) v

def addScaledTo (c : α) (u : SparseVec α) (v : Array α) : Array α :=
  u.foldl (fun v e => v.modify e.1 (· + c * e.2)) v

end SparseVec

structure SparseSystem (α : Type) where
  size : Nat
  columns : Array (SparseVec α)
  rhs : Array α

namespace SparseSystem

variable {α : Type} [Scalar α]

/-- Adds the products of a row with itself to the columns of a matrix. -/
def addSquare (columns : Array (SparseVec α)) (row : SparseVec α) : Array (SparseVec α) :=
  row.foldl (fun columns e => columns.modify e.1 (SparseVec.addScaled e.2 row)) columns

/-- The normal equations of the problem to minimise `‖A x + r‖²`. -/
def ofLeastSquares (a : Mat α) (r : Vec α) : SparseSystem α :=
  let rows := a.rows.map fun row => SparseVec.ofList row.coords
  let gradient := (List.zip r.coords rows).foldl (fun g e => SparseVec.addScaledTo e.1 e.2 g)
    (Array.replicate a.cols 0)
  { size := a.cols
    columns := rows.foldl addSquare (Array.replicate a.cols [])
    rhs := gradient.map (- ·) }

def neighbours (s : SparseSystem α) (i : Nat) : List Nat :=
  ((s.columns.getD i []).map Prod.fst).filter (· ≠ i)

end SparseSystem

end Smoothing
