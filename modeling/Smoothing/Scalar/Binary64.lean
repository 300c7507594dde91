import Smoothing.Scalar

/-!
# Floating point scalars

The scalars the program runs on: 64-bit floating point numbers.
-/

namespace Smoothing.Binary64

/-- The key of a floating point number in the total order: negative numbers come first, larger
magnitudes further out, and the numbers that are not numbers at the two ends. -/
def totalKey (x : Float) : Int :=
  let bits := x.toBits.toNat
  if bits < Nat.pow 2 63 then bits else Nat.pow 2 63 - 1 - bits

/-- The length of a point whose coordinates are `0 < y ≤ x` and have squares of ordinary size: a
square root, and a step of Newton's method that gives back what the rounding of the squares lost. -/
def hypotOrdered (x y : Float) : Float :=
  let h := Float.sqrt (x * x + y * y)
  if h ≤ 2.0 * y then
    let δ := h - y
    h - (x * (2.0 * δ - x) + (δ - 2.0 * (x - y)) * δ) / (2.0 * h)
  else
    let δ := h - x
    h - (2.0 * δ * (x - 2.0 * y) + ((4.0 * δ - y) * y + δ * δ)) / (2.0 * h)

/-- The length of a point. Very large and very small coordinates are scaled by a power of two before
they are squared, and a coordinate too small to change the other is added to it. -/
def hypot (x y : Float) : Float :=
  if x.isInf || y.isInf then 1.0 / 0.0
  else if x.isNaN || y.isNaN then x + y
  else
    let (x, y) := (x.abs, y.abs)
    let (x, y) := if x < y then (y, x) else (x, y)
    let unit := Float.scaleB 1.0 (-54)
    let scale := Float.scaleB 1.0 (-600)
    if Float.scaleB 1.0 511 < x then
      if y ≤ x * unit then x + y else hypotOrdered (x * scale) (y * scale) / scale
    else if y < Float.scaleB 1.0 (-459) then
      if y / unit ≤ x then x + y else hypotOrdered (x / scale) (y / scale) * scale
    else if y ≤ x * unit then x + y
    else hypotOrdered x y

instance : Scalar Float where
  zero := 0.0
  one := 1.0
  ofScientific := OfScientific.ofScientific
  natCast := Float.ofNat
  lt := LT.lt
  le := LE.le
  decLT := inferInstance
  decLE := inferInstance
  abs := Float.abs
  sqrt := Float.sqrt
  hypot := hypot
  sin := Float.sin
  cos := Float.cos
  atan2 := Float.atan2
  isFinite := Float.isFinite
  infinity := 1.0 / 0.0
  totalLE x y := totalKey x ≤ totalKey y

end Smoothing.Binary64
