import Smoothing.Decimal.Shortest

/-!
# Numbers as text

The four ways a number is written: with a fixed number of places, in exponent form with a fixed
number of places, and with the fewest digits that read back, either plainly or always with a point.
-/

namespace Smoothing.Decimal

/-- Writes what is not an ordinary number, and the sign of what is. -/
def writeWith (magnitude : Binary → String) (x : Float) : String :=
  match Reading.ofFloat x with
  | .notANumber => "NaN"
  | .infinite negative => if negative then "-inf" else "inf"
  | .number b => (if b.negative then "-" else "") ++ magnitude b

/-- Writes `c · 10 ^ (-places)` with that many places. -/
def pointAt (c places : Nat) : String :=
  let digits := toString c
  let padded := "".pushn '0' (places + 1 - digits.length) ++ digits
  if places = 0 then padded
  else
    let whole := padded.length - places
    String.ofList (padded.toList.take whole) ++ "." ++ String.ofList (padded.toList.drop whole)

def fixed (places : Nat) : Float → String :=
  writeWith fun b => pointAt (roundAt b.numerator b.denominator places) places

/-- Writes `c · 10 ^ e`, where `c` has one digit before the point. -/
def exponentForm (c places : Nat) (e : Int) : String :=
  pointAt c places ++ "e" ++ toString e

def scientific (places : Nat) : Float → String :=
  writeWith fun b =>
    if b.mantissa = 0 then exponentForm 0 places 0
    else
      let (c, e) := roundSignificant b.numerator b.denominator (places + 1)
      exponentForm c places e

def Digits.positional (d : Digits) : String :=
  if 0 ≤ d.exponent then toString (d.digits * Nat.pow 10 d.exponent.toNat)
  else pointAt d.digits (-d.exponent).toNat

def Digits.trim : Nat → Digits → Digits
  | 0, d => d
  | fuel + 1, d =>
    if d.digits ≠ 0 ∧ d.digits % 10 = 0 then Digits.trim fuel ⟨d.digits / 10, d.exponent + 1⟩ else d

/-- Writes a number with the fewest digits that read back, in full. -/
def plain : Float → String :=
  writeWith fun b => (Digits.trim 17 (shortest b)).positional

/-- Writes a number with the fewest digits that read back and always with a point or an exponent:
numbers from `10 ^ 16` on or below `10 ^ (-4)` in exponent form, the others in full. -/
def pointed : Float → String :=
  writeWith fun b =>
    let d := Digits.trim 17 (shortest b)
    let places := digitCount d.digits - 1
    let e := d.exponent + places
    if b.mantissa ≠ 0 ∧ (e < -4 ∨ 16 ≤ e) then exponentForm d.digits places e
    else if 0 ≤ d.exponent then d.positional ++ ".0" else d.positional

end Smoothing.Decimal
