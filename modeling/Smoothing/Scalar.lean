/-!
# Scalars

The numbers a problem is stated over. Everything numeric in the library is written once, over the
class `Scalar`, so the same definition runs on 64-bit floating point numbers and has a meaning over
the real numbers. The class keeps apart what the two differ in: the order is not assumed total,
`==` is not assumed reflexive, and `isFinite` says which elements are ordinary numbers.
-/

namespace Smoothing

class Scalar (α : Type) extends Zero α, One α, Add α, Sub α, Mul α, Div α, Neg α, LT α, LE α,
    BEq α, OfScientific α, NatCast α where
  decLT : DecidableLT α
  decLE : DecidableLE α
  abs : α → α
  sqrt : α → α
  /-- `hypot x y` is the length of the point `(x, y)`. -/
  hypot : α → α → α
  sin : α → α
  cos : α → α
  /-- `atan2 y x` is the angle of the point `(x, y)`. -/
  atan2 : α → α → α
  isFinite : α → Bool
  /-- The error of a violated hard constraint. -/
  infinity : α
  /-- A total order on all elements, also those the order `≤` does not compare. -/
  totalLE : α → α → Bool

instance Scalar.decidableLT {α : Type} [Scalar α] : DecidableLT α := Scalar.decLT

instance Scalar.decidableLE {α : Type} [Scalar α] : DecidableLE α := Scalar.decLE

namespace Scalar

variable {α : Type} [Scalar α]

def two : α := 1 + 1

/-- The larger of two scalars; an element not equal to itself loses against any other. -/
def max (a b : α) : α :=
  if a < b then b else if b ≤ a then a else if a == a then a else b

/-- One with the sign of a scalar: `-1` below zero, `1` from zero on. -/
def signum (a : α) : α :=
  if a < 0 then -1 else if 0 ≤ a then 1 else a

def sum (as : List α) : α :=
  as.foldl (· + ·) 0

/-- Sum from the left, starting at the first term; zero if there is none. -/
def total : List α → α
  | [] => 0
  | a :: as => as.foldl (· + ·) a

/-- Sum in eight strands: as long as there are eight terms, they go to the strands in turn. Then the
strands are added up in pairs, and the terms that are left over follow one after the other. -/
def strandSum (a b c d e f g h : α) : List α → α
  | p :: q :: r :: s :: t :: u :: v :: w :: rest =>
    strandSum (a + p) (b + q) (c + r) (d + s) (e + t) (f + u) (g + v) (h + w) rest
  | rest => rest.foldl (· + ·) (0 + (a + e) + (b + f) + (c + g) + (d + h))

/-- The spacing of the floating point numbers just above one: `2⁻⁵²`. -/
def epsilon : α := 1 / 4503599627370496.0

end Scalar

end Smoothing
