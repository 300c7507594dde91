import Smoothing.Decimal.Binary

/-!
# Rounding to a decimal grid

A fraction is rounded to the nearest multiple of a power of ten; a tie goes to the even neighbour.
-/

namespace Smoothing.Decimal

/-- The quotient rounded to the nearest natural number, a tie to the even one. -/
def roundDiv (n d : Nat) : Nat :=
  let q := n / d
  let twice := 2 * (n % d)
  if twice < d then q else if d < twice then q + 1 else q + q % 2

def digitCount (n : Nat) : Nat := (toString n).length

/-- The decimal exponent of a positive fraction: the `e` with `10 ^ e ≤ n / d < 10 ^ (e + 1)`. -/
def magnitude (n d : Nat) : Int :=
  let guess : Int := digitCount n - digitCount d
  if Nat.pow 10 guess.toNat * d ≤ n * Nat.pow 10 (-guess).toNat then guess else guess - 1

def roundAt (n d : Nat) (places : Int) : Nat :=
  roundDiv (n * Nat.pow 10 places.toNat) (d * Nat.pow 10 (-places).toNat)

/-- A fraction to the given number of significant digits: `(c, e)` stands for
`c · 10 ^ (e + 1 - digits)`, where `c` has that many digits. -/
def roundSignificant (n d digits : Nat) : Nat × Int :=
  let e := magnitude n d
  let c := roundAt n d (digits - 1 - e)
  if c < Nat.pow 10 digits then (c, e) else (c / 10, e + 1)

end Smoothing.Decimal
