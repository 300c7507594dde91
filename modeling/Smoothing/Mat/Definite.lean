import Smoothing.Mat.Equations
import Smoothing.Mat.Inverse

/-!
# Positive definite matrices

A symmetric matrix is factored as `L Lᵀ` with a lower triangular `L`, if all pivots are positive;
only the lower triangle is read. The inverse of `L` whitens a vector whose covariance the matrix is.
-/

namespace Smoothing.Mat

variable {α : Type} [Scalar α]

/-- Removes the first row and column from a lower triangle given by rows: what is left is
`C - b bᵀ`, where `b` is the first column of the factor below the diagonal. -/
def schurRows (b : List α) (rows : List (Vec α)) : List (Vec α) :=
  List.zipWith
    (fun (r : Vec α) bi => ⟨List.zipWith (fun y bj => y - bi * bj) r.coords.tail b⟩) rows b

/-- The columns of the factor of a symmetric matrix given by the rows of its lower triangle, each
from the diagonal down; `none` if a pivot is not positive. -/
def lowerColumns : Nat → List (Vec α) → Option (List (Vec α))
  | 0, _ => some []
  | n + 1, rows =>
    let column := rows.map fun r => r.coords.headD 0
    let pivot := column.headD 0
    if 0 < pivot then do
      let d := Scalar.sqrt pivot
      let b := column.tail.map (· / d)
      let columns ← lowerColumns n (schurRows b rows.tail)
      some (⟨d :: b⟩ :: columns)
    else none

def lowerMatrix (columns : List (Vec α)) : Nat → Nat → α :=
  fun i j => if j ≤ i then (columns.getD j ⟨[]⟩).get (i - j) else 0

/-- The inverse of a lower triangular matrix given by its columns, each from the diagonal down. With
up to four rows it is found from the determinant, with more by elimination; there is none if a
number that is divided by is too small. -/
def lowerInverse? (columns : List (Vec α)) : Option (Mat α) :=
  match columns.length with
  | 1 => inverse1? (lowerMatrix columns)
  | 2 => inverse2? (lowerMatrix columns)
  | 3 => inverse3? (lowerMatrix columns)
  | 4 => inverse4? (lowerMatrix columns)
  | n => inverse? n (lowerMatrix columns)

inductive Whitening (α : Type) where
  | notDefinite
  /-- The factor has entries too small for its inverse to be found. -/
  | notInvertible
  | inverse (m : Mat α)

def whitening (m : Mat α) : Whitening α :=
  match lowerColumns m.height m.rows with
  | none => .notDefinite
  | some columns =>
    match lowerInverse? columns with
    | none => .notInvertible
    | some r => .inverse r

end Smoothing.Mat
