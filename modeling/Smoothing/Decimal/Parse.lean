import Smoothing.Decimal.Rounding

/-!
# Reading decimal numbers

A decimal number has a sign, digits with at most one point among them, and an exponent; of these
only one digit is needed. The words for infinity and for what is not a number are read in small and
capital letters. The result is the nearest floating point number.
-/

namespace Smoothing.Decimal

def digitsValue (cs : List Char) : Nat :=
  cs.foldl (fun n c => 10 * n + (c.toNat - '0'.toNat)) 0

/-- Splits off a sign; the flag says whether it is a minus sign. -/
def splitSign : List Char → Bool × List Char
  | '-' :: cs => (true, cs)
  | '+' :: cs => (false, cs)
  | cs => (false, cs)

/-- The floating point number nearest to `m · 10 ^ e`. Exponents out of range are not computed. -/
def nearest (m : Nat) (e : Int) : Float :=
  let size := digitCount m + e
  if m = 0 ∨ size < -400 then 0.0
  else if 400 < size then 1.0 / 0.0
  else Float.ofScientific m (decide (e < 0)) e.natAbs

def readExponent? : List Char → Option Int
  | [] => some 0
  | c :: cs =>
    let (negative, ds) := splitSign cs
    if (c == 'e' || c == 'E') && !ds.isEmpty && ds.all Char.isDigit then
      let n : Int := digitsValue ds
      some (if negative then -n else n)
    else none

def readMagnitude? (cs : List Char) : Option Float :=
  let whole := cs.takeWhile Char.isDigit
  let (places, rest) := match cs.dropWhile Char.isDigit with
    | '.' :: cs => (cs.takeWhile Char.isDigit, cs.dropWhile Char.isDigit)
    | cs => ([], cs)
  if whole.isEmpty && places.isEmpty then none
  else (readExponent? rest).map fun e =>
    nearest (digitsValue (whole ++ places)) (e - places.length)

def readWord? (cs : List Char) : Option Float :=
  match String.ofList (cs.map Char.toLower) with
  | "inf" | "infinity" => some (1.0 / 0.0)
  | "nan" => some (0.0 / 0.0)
  | _ => none

def read? (text : String) : Option Float :=
  let (negative, cs) := splitSign text.toList
  ((readWord? cs).orElse fun _ => readMagnitude? cs).map fun x => if negative then -x else x

end Smoothing.Decimal
