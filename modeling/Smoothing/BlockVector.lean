import Smoothing.KeyMap
import Smoothing.Vec

/-!
# Block vectors

A vector in blocks, one block for each key: the solution of a linear system, and the update applied
to a configuration. Where two block vectors meet, a missing block counts as zero.
-/

namespace Smoothing

abbrev BlockVector (α : Type) := KeyMap (Vec α)

namespace BlockVector

variable {α : Type}

def dim (x : BlockVector α) : Nat := x.total Vec.size

/-- Whether the blocks at the keys of both have equal lengths. -/
def fits (x y : BlockVector α) : Bool :=
  x.entries.all fun e => match y.get? e.1 with
    | some w => e.2.size == w.size
    | none => true

variable [Scalar α]

/-- The block at a key, or a zero block of the given length. -/
def blockOr (x : BlockVector α) (k : Key) (n : Nat) : Vec α := (x.get? k).getD (Vec.zero n)

def zerosLike (x : BlockVector α) : BlockVector α := x.map fun _ v => Vec.zero v.size

/-- Adds `c · v` to the block at a key. -/
def addBlock (c : α) (y : BlockVector α) (k : Key) (v : Vec α) : BlockVector α :=
  match y.get? k with
  | some w => y.insert k (Vec.axpy c v w)
  | none => y.insert k (v.scale c)

def axpy (c : α) (x y : BlockVector α) : BlockVector α :=
  x.entries.foldl (fun acc e => addBlock c acc e.1 e.2) y

def scaled (x : BlockVector α) (c : α) : BlockVector α := x.map fun _ v => v.scale c

def dot (x y : BlockVector α) : α :=
  Scalar.sum (x.entries.filterMap fun e => (y.get? e.1).map e.2.dot)

/-- The vector `c · x + y`, if the blocks of both have equal lengths. -/
def axpy? (c : α) (x y : BlockVector α) : Option (BlockVector α) :=
  if x.fits y then some (axpy c x y) else none

/-- The inner product, if the blocks of both have equal lengths. -/
def dot? (x y : BlockVector α) : Option α := if x.fits y then some (x.dot y) else none

def normSq (x : BlockVector α) : α := Scalar.sum (x.values.map Vec.normSq)

def norm (x : BlockVector α) : α := Scalar.sqrt x.normSq

/-- The largest absolute value of a coordinate; what is not a number is passed over. -/
def amax (x : BlockVector α) : α := (x.values.map Vec.amax).foldl Scalar.max 0

/-- Whether two block vectors have the same keys and blocks that differ by at most a tolerance. -/
def isApprox (x y : BlockVector α) (tolerance : α) : Bool :=
  x.size == y.size && x.entries.all fun e => match y.get? e.1 with
    | some w => e.2.size == w.size && decide ((e.2 - w).amax ≤ tolerance)
    | none => false

def same (x y : BlockVector α) : Bool :=
  x.keys == y.keys && x.values == y.values

end BlockVector

end Smoothing
