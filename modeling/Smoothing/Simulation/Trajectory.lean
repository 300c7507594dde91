/-!
# Trajectories

Where the poses of a simulated problem lie, and which of them are compared besides successive ones.
On a grid the path goes through the rows like a snake, every other row backwards, and poses one
above the other are compared. On a ring the ends are compared, and poses opposite to each other.
-/

namespace Smoothing

inductive Topology where
  | grid
  | ring
deriving DecidableEq, Repr

namespace Grid

/-- Whether a row is passed backwards. -/
def isBackwards (row : Nat) : Bool := row % 2 != 0

/-- The column and the row of a place on the path. -/
def cell (size i : Nat) : Nat × Nat :=
  let row := i / size
  let step := i % size
  (if isBackwards row then size - 1 - step else step, row)

/-- The place on the path of a column in a row. -/
def index (size row column : Nat) : Nat :=
  row * size + if isBackwards row then size - 1 - column else column

/-- The places in a column of two successive rows, unless one follows the other. -/
def closure? (size row column : Nat) : Option (Nat × Nat) :=
  let a := index size row column
  let b := index size (row + 1) column
  if b - a > 1 then some (a, b) else none

def evens (n : Nat) : List Nat := (List.range n).filter (· % 2 = 0)

def closures (size : Nat) : List (Nat × Nat) :=
  (List.range (size - 1)).flatMap fun row => (evens size).filterMap (closure? size row)

end Grid

namespace Ring

/-- The number of places from one comparison to the next. -/
def stride (size : Nat) : Nat := max (size / 8) 1

def starts (size : Nat) : List Nat := (List.range (size / 2)).filter (· % stride size = 0)

/-- The pairs of places that are compared: the two ends, then opposite ones. -/
def closures (size : Nat) : List (Nat × Nat) :=
  (size - 1, 0) ::
    ((starts size).filter fun i => i + size / 2 < size - 1).map fun i => (i, i + size / 2)

end Ring

namespace Topology

def poses : Topology → Nat → Nat
  | grid, size => size * size
  | ring, size => size

def closures : Topology → Nat → List (Nat × Nat)
  | grid, size => Grid.closures size
  | ring, size => Ring.closures size

end Topology

end Smoothing
