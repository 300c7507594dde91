import Smoothing.Linear.Elimination

/-!
# Elimination with numbered columns

`Elimination.eliminateOne` lays factors out by lists. Here the same is computed with numbers: every
variable is given its first column in a table, the blocks of the factors are written one after the
other into a matrix of zeros, and the conditional and the remainder are cut out of the triangular
factor. Whatever is looked up or written out of range stops the computation.
-/

namespace Smoothing

variable {α : Type}

namespace Mat

def column (v : Vec α) : Mat α where
  cols := 1
  rows := v.coords.map fun a => ⟨[a]⟩
  width := by simp

variable [Scalar α]

def entry? (m : Mat α) (i j : Nat) : Option α :=
  if i < m.height ∧ j < m.cols then some (m.get i j) else none

/-- Writes a matrix of `h` rows and `w` columns into another one, with its upper left entry at row
`i` and column `j`, if it has these sizes and lies within the other one. -/
def write? (m : Mat α) (i j h w : Nat) (b : Mat α) : Option (Mat α) :=
  if (i + h ≤ m.height ∧ j + w ≤ m.cols) ∧ b.height = h ∧ b.cols = w then
    some (ofFn m.height m.cols fun p q =>
      if i ≤ p ∧ p < i + h ∧ j ≤ q ∧ q < j + w then b.get (p - i) (q - j) else m.get p q)
  else none

end Mat

namespace Elimination

structure Columns where
  first : KeyMap Nat
  count : Nat

def Columns.add (c : Columns) (k : Key) (w : Nat) : Columns :=
  ⟨c.first.insert k c.count, c.count + w⟩

def numberColumns (dims : KeyMap Nat) : List Key → Columns → LinearRun α Columns
  | [], c => pure c
  | k :: ks, c =>
    match dims.get? k with
    | none => Logged.fail (.missingKey k)
    | some w => numberColumns dims ks (c.add k w)

variable [Scalar α]

def writeBlocks (c : Columns) (i h : Nat) : List (Key × Mat α) → Mat α → Option (Mat α)
  | [], ab => some ab
  | (k, m) :: ts, ab => do
    let j ← c.first.get? k
    let ab ← ab.write? i j h m.cols m
    writeBlocks c i h ts ab

def writeFactors (c : Columns) : Nat → List (GaussianFactor α) → Mat α → Option (Mat α)
  | _, [], ab => some ab
  | i, f :: fs, ab => do
    let ab ← writeBlocks c i f.height f.terms ab
    let ab ← ab.write? i c.count f.height 1 (Mat.column f.rhs)
    writeFactors c (i + f.height) fs ab

/-- Reads the pivots of a triangular factor at the given places, up to the first one that is
negligible. -/
def findNegligible? (r : Mat α) (scale : α) : List Nat → Option Bool
  | [] => some false
  | i :: is => do
    let pivot ← r.entry? i i
    if Scalar.abs pivot ≤ pivotTolerance * scale then some true else findNegligible? r scale is

def isNegligible? (r : Mat α) (n : Nat) (scale : α) : Option Bool :=
  if scale == 0 then some true else findNegligible? r scale (List.range n)

def cutBlocks (r : Mat α) (c : Columns) (dims : KeyMap Nat) (i h : Nat) :
    List Key → Option (List (Key × Mat α))
  | [] => some []
  | k :: ks => do
    let j ← c.first.get? k
    let w ← dims.get? k
    let b ← r.block? i j h w
    let bs ← cutBlocks r c dims i h ks
    return (k, b) :: bs

/-- Eliminates a variable of width `dim` from the factors that mention it, with numbered columns. -/
def eliminateOneIndexed (k : Key) (dim : Nat) (fs : List (GaussianFactor α)) (dims : KeyMap Nat)
    (o : EliminationOrder) : LinearRun α (Conditional α × Option (GaussianFactor α)) := do
  let others := separator o k fs
  let c ← numberColumns dims others ⟨KeyMap.empty.insert k 0, dim⟩
  let rows := GaussianGraph.height ⟨fs⟩
  if rows < dim then (LinearError.degenerate k).stop
  else
    let ab ← Logged.fromOption (writeFactors c 0 fs (Mat.zero rows (c.count + 1)))
    let coefficients ← Logged.fromOption (ab.block? 0 0 rows c.count)
    let scale := coefficients.amax
    let r := ab.triangular
    let negligible ← Logged.fromOption (isNegligible? r dim scale)
    if negligible then do
      Logged.report (.negligiblePivot k scale)
      (LinearError.degenerate k).stop
    else
      let parents ← Logged.fromOption (cutBlocks r c dims 0 dim others)
      let diagonal ← Logged.fromOption (r.block? 0 0 dim dim)
      let d ← Logged.fromOption (columnOf r 0 dim c.count)
      let conditional : Conditional α := ⟨k, diagonal, parents, d⟩
      let remaining := min rows c.count - dim
      if others.isEmpty || remaining == 0 then return (conditional, none)
      else
        let blocks ← Logged.fromOption (cutBlocks r c dims dim remaining others)
        let b ← Logged.fromOption (columnOf r dim remaining c.count)
        let remainder ← Logged.lift (GaussianFactor.ofBlocks? others (blocks.map (·.2)) b)
        return (conditional, some remainder)

end Elimination

end Smoothing
