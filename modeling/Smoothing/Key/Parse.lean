import Smoothing.Key
import Smoothing.Text.Alphabetic

/-!
# Reading keys

A key is written as one letter and a number in decimal, which may have a plus sign and leading zeros
and has to fit in 64 bits. `Key.ofText?` reads it.
-/

namespace Smoothing

inductive NumberError where
  | empty
  | invalidDigit
  | tooLarge
deriving DecidableEq, Repr

def NumberError.message : NumberError → String
  | .empty => "cannot parse integer from empty string"
  | .invalidDigit => "invalid digit found in string"
  | .tooLarge => "number too large to fit in target type"

inductive KeyError where
  | noLetter (text : String)
  | noIndex (text : String) (cause : NumberError)
deriving DecidableEq, Repr

def KeyError.message : KeyError → String
  | .noLetter text => s!"'{text}' must start with a letter"
  | .noIndex text cause => s!"'{text}' has no numeric index: {cause.message}"

/-- Reads decimal digits after a value that is already read, below a bound. -/
def readDigits (bound value : Nat) : List Char → Except NumberError Nat
  | [] => .ok value
  | c :: cs =>
    if c.isDigit then
      let next := 10 * value + (c.toNat - '0'.toNat)
      if next < bound then readDigits bound next cs else .error .tooLarge
    else .error .invalidDigit

/-- Drops a plus sign if something follows it. -/
def dropPlus : List Char → List Char
  | '+' :: c :: cs => c :: cs
  | cs => cs

/-- Reads a number below a bound: an optional plus sign and at least one decimal digit. -/
def readNumber (bound : Nat) (cs : List Char) : Except NumberError Nat :=
  if cs.isEmpty then .error .empty else readDigits bound 0 (dropPlus cs)

namespace Key

def ofChars? (text : String) : List Char → Except KeyError Key
  | [] => .error (.noLetter text)
  | c :: cs =>
    if Text.isAlphabetic c then
      match readNumber UInt64.size cs with
      | .ok n => .ok ⟨c, UInt64.ofNat n⟩
      | .error e => .error (.noIndex text e)
    else .error (.noLetter text)

def ofText? (text : String) : Except KeyError Key :=
  ofChars? text text.toList

end Key

end Smoothing
