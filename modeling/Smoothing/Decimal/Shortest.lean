import Smoothing.Decimal.Rounding

/-!
# The shortest decimal that reads back

Of the decimals that round to a given floating point number, the ones with the fewest digits, and of
these the nearest. A decimal with `k` digits is tried on the grid of the number's own magnitude: if
a point of a grid rounds to the number, so does one of the two neighbours of the number on that
grid.
-/

namespace Smoothing.Decimal

/-- The decimal number `digits · 10 ^ exponent`. -/
structure Digits where
  digits : Nat
  exponent : Int
deriving DecidableEq, Repr

/-- Whether `c · 10 ^ u` rounds to the magnitude of `b`: it lies between the midpoints to the two
neighbouring floating point numbers, which count themselves if the mantissa is even. -/
def readsBack (b : Binary) (c : Nat) (u : Int) : Bool :=
  let below := if b.mantissa = Binary.hiddenBit ∧ Binary.leastExponent < b.exponent then 1 else 2
  let scale := Nat.pow 10 (-u).toNat * Nat.pow 2 (b.exponent - 2).toNat
  let lo := (4 * b.mantissa - below) * scale
  let hi := (4 * b.mantissa + 2) * scale
  let point := c * Nat.pow 10 u.toNat * Nat.pow 2 (2 - b.exponent).toNat
  if b.mantissa % 2 = 0 then lo ≤ point && point ≤ hi else lo < point && point < hi

/-- The neighbour on the grid of `k` digits that reads back, the nearer one if both do. -/
def candidate (b : Binary) (k : Nat) : Option Digits :=
  let u := magnitude b.numerator b.denominator + 1 - k
  let n := b.numerator * Nat.pow 10 (-u).toNat
  let d := b.denominator * Nat.pow 10 u.toNat
  let low := n / d
  let near := roundDiv n d
  if readsBack b near u then some ⟨near, u⟩
  else
    let other := if near = low then low + 1 else low
    if readsBack b other u then some ⟨other, u⟩ else none

def shortestFrom (b : Binary) : Nat → Nat → Digits
  | 0, _ => ⟨b.numerator, 0⟩
  | tries + 1, k => (candidate b k).getD (shortestFrom b tries (k + 1))

/-- The shortest decimal that reads back; seventeen digits always suffice. -/
def shortest (b : Binary) : Digits :=
  if b.mantissa = 0 then ⟨0, 0⟩ else shortestFrom b 17 1

end Smoothing.Decimal
