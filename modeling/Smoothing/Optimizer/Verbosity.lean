/-!
# Verbosity

How much an optimizer reports, in increasing order of detail. The verbosity selects events; it never
changes an answer.
-/

namespace Smoothing

inductive Verbosity where
  | silent
  | error
  /-- The damping of every accepted step. -/
  | lambda
  /-- Every damping that is tried. -/
  | tryLambda
  | config
  | delta
  | tryConfig
  | tryDelta
  | linear
  | damped
deriving DecidableEq, Repr

namespace Verbosity

def all : List Verbosity :=
  [silent, error, lambda, tryLambda, config, delta, tryConfig, tryDelta, linear, damped]

def rank : Verbosity → Nat
  | silent => 0
  | error => 1
  | lambda => 2
  | tryLambda => 3
  | config => 4
  | delta => 5
  | tryConfig => 6
  | tryDelta => 7
  | linear => 8
  | damped => 9

instance : LE Verbosity := ⟨fun v w => v.rank ≤ w.rank⟩
instance : LT Verbosity := ⟨fun v w => v.rank < w.rank⟩
instance (v w : Verbosity) : Decidable (v ≤ w) := inferInstanceAs (Decidable (v.rank ≤ w.rank))
instance (v w : Verbosity) : Decidable (v < w) := inferInstanceAs (Decidable (v.rank < w.rank))

theorem le_def {v w : Verbosity} : v ≤ w ↔ v.rank ≤ w.rank := Iff.rfl

def text : Verbosity → String
  | silent => "silent"
  | error => "error"
  | lambda => "lambda"
  | tryLambda => "try-lambda"
  | config => "config"
  | delta => "delta"
  | tryConfig => "try-config"
  | tryDelta => "try-delta"
  | linear => "linear"
  | damped => "damped"

/-- Reads a verbosity, in small or capital letters; a text that names none is handed back in small
letters. -/
def ofText? (text : String) : Except String Verbosity :=
  let name := text.map Char.toLower
  match all.find? (·.text == name) with
  | some v => .ok v
  | none => .error name

end Verbosity

end Smoothing
