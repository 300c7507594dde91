import Smoothing.Mat

/-!
# Triangular factors

A matrix is brought to upper triangular form by reflections, one column after the other, and a
system with an upper triangular matrix is solved by substitution. A reflection keeps all inner
products of columns, so the triangular factor `R` of `A` has `RᵀR = AᵀA`. Its diagonal is not
negative: the sign of each row is chosen so.
-/

namespace Smoothing.Mat

variable {α : Type} [Scalar α]

/-! ### Reflections -/

/-- A list of rows whose first column is brought to a multiple of the first unit vector. -/
structure ColumnStep (α : Type) where
  /-- The first entry of the first row, all that is left of the first column. -/
  pivot : α
  top : List α
  rest : List (Vec α)

/-- Applies the reflection with the given unit normal to each of the `w` columns, times a sign. -/
def reflect (normal : Vec α) (sign : α) (w : Nat) (rows : List (Vec α)) : List (Vec α) :=
  let columns := columnsOf w (rows.map Vec.coords)
  let factors : Vec α := ⟨columns.map fun c => normal.dot c * (sign * -Scalar.two)⟩
  List.zipWith (fun a r => Vec.zipWith (fun f y => f * a + sign * y) factors r) normal.coords rows

def addToFirst (c : List α) (a : α) : Vec α :=
  ⟨match c with
    | [] => []
    | x :: xs => (x + a) :: xs⟩

def splitTop (pivot : α) : List (Vec α) → ColumnStep α
  | [] => ⟨pivot, [], []⟩
  | r :: rs => ⟨pivot, r.coords, rs⟩

/-- Brings the first column of a list of rows to a multiple of the first unit vector; `w` is the
number of the other columns. The normal of the reflection is the column plus its norm, with the sign
of its first entry, times the unit vector. A zero column is left as it is. -/
def clearColumn (w : Nat) (rows : List (Vec α)) : ColumnStep α :=
  let column := rows.map fun r => r.coords.headD 0
  let others := rows.map fun r => (⟨r.coords.tail⟩ : Vec α)
  let square := (⟨column⟩ : Vec α).normSq
  let norm := Scalar.sqrt square
  let first := column.headD 0
  let (modulus, unit) := if 0 ≤ first then (first, 1) else (-first, -1)
  let signed := unit * norm
  let factor := (square + modulus * norm) * Scalar.two
  if factor == 0 then splitTop (Scalar.abs signed) others
  else
    let scaled := (addToFirst column signed).unscale (Scalar.sqrt factor)
    let normal := scaled.unscale scaled.norm
    let sign := Scalar.signum (-signed)
    splitTop (Scalar.abs signed) (reflect normal sign w others)

def triangularRows : Nat → Nat → List (Vec α) → List (Vec α)
  | 0, _, _ => []
  | n + 1, w, rows =>
    let step := clearColumn (w - 1) rows
    ⟨step.pivot :: step.top⟩ ::
      (triangularRows n (w - 1) step.rest).map fun r => ⟨0 :: r.coords⟩

/-- The upper triangular factor: as many rows as the smaller side of the matrix. -/
def triangular (m : Mat α) : Mat α :=
  ofRows m.cols (triangularRows (min m.height m.cols) m.cols m.rows)

/-! ### Substitution -/

/-- Back-substitution: solves `R x = b` for upper triangular rows, of which the first `k` columns
are left out. Coordinates of `b` past the rows are handed on. There is no solution if a diagonal
entry is zero or `b` is too short. -/
def solveRows : Nat → List (Vec α) → List α → Option (List α)
  | _, [], bs => some bs
  | _, _ :: _, [] => none
  | k, row :: rows, b :: bs => do
    let xs ← solveRows (k + 1) rows bs
    let d := row.get k
    if d == 0 then none
    else
      let known := List.zip (row.coords.drop (k + 1)) xs
      some (known.foldr (fun rx acc => -rx.2 * rx.1 + acc) b / d :: xs)

def solveUpper? (r : Mat α) (b : Vec α) : Option (Vec α) :=
  (solveRows 0 r.rows b.coords).map Vec.mk

/-- Forward substitution: solves `Rᵀ x = b` for upper triangular columns, after the coordinates that
are known already. Coordinates of `b` past the columns are handed on. -/
def solveColumns : List α → List (Vec α) → List α → Option (List α)
  | xs, [], bs => some (xs ++ bs)
  | _, _ :: _, [] => none
  | xs, column :: columns, b :: bs =>
    let d := column.get xs.length
    if d == 0 then none
    else
      let x := (b - column.dot ⟨xs⟩) / d
      solveColumns (xs ++ [x]) columns bs

def solveUpperTransposed? (r : Mat α) (b : Vec α) : Option (Vec α) :=
  (solveColumns [] r.columnList b.coords).map Vec.mk

end Smoothing.Mat
