/-!
# Binary numbers, exactly

What a 64-bit floating point number stands for: a sign, a natural number and a power of two, or one
of the three special values. Decimal text is computed from this form in exact arithmetic.
-/

namespace Smoothing.Decimal

/-- The number `± mantissa · 2 ^ exponent`. -/
structure Binary where
  negative : Bool
  mantissa : Nat
  exponent : Int
deriving DecidableEq, Repr

inductive Reading where
  | number (value : Binary)
  | infinite (negative : Bool)
  | notANumber
deriving DecidableEq, Repr

def Binary.leastExponent : Int := -1074

/-- The mantissa of the powers of two: the next smaller number is only half a step away. -/
def Binary.hiddenBit : Nat := Nat.pow 2 52

/-- Reads the 64 bits of a floating point number: sign, 11 bits of exponent, 52 bits of fraction. -/
def Reading.ofBits (bits : Nat) : Reading :=
  let negative := Nat.pow 2 63 ≤ bits
  let biased := bits / Nat.pow 2 52 % Nat.pow 2 11
  let fraction := bits % Nat.pow 2 52
  if biased = 2047 then
    if fraction = 0 then .infinite negative else .notANumber
  else if biased = 0 then
    .number ⟨negative, fraction, Binary.leastExponent⟩
  else
    .number ⟨negative, Binary.hiddenBit + fraction, Binary.leastExponent + (biased - 1 : Nat)⟩

def Reading.ofFloat (x : Float) : Reading :=
  .ofBits x.toBits.toNat

/-- The magnitude as a fraction: the number is `± numerator / denominator`. -/
def Binary.numerator (b : Binary) : Nat := b.mantissa * Nat.pow 2 b.exponent.toNat

@[inherit_doc Binary.numerator]
def Binary.denominator (b : Binary) : Nat := Nat.pow 2 (-b.exponent).toNat

end Smoothing.Decimal
