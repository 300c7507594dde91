import Smoothing.Config
import Smoothing.Noise

/-!
# Factors

A factor compares variables with a measurement: it gives a residual, and a Jacobian of the residual
with respect to updates of its variables. Priors, relative measurements, hard equalities and
measurement functions are built in; any other factor is given by its own evaluation.
-/

namespace Smoothing

/-- Evaluations and everything built on them may fail with a cause or meet sizes that do not
agree. -/
abbrev Evaluated (α β : Type) := Except (Stop (FactorError α)) β

structure Residual (α : Type) where
  value : Vec α
  jacobian : Option (Mat α)

/-- A measurement function on vectors with its Jacobian. Both may be undefined at vectors of a
length they are not made for. -/
structure Measurement (α : Type) where
  value : Vec α → Option (Vec α)
  jacobian : Vec α → Option (Mat α)

structure PriorFactor (α : Type) where
  key : Key
  prior : Value α
  noise : NoiseModel α

/-- Measures the element that leads from one variable to another. -/
structure BetweenFactor (α : Type) where
  first : Key
  second : Key
  measured : Value α
  noise : NoiseModel α

/-- Fixes one variable at a value. -/
structure EqualityFactor (α : Type) where
  key : Key
  feasible : Value α
  /-- Gives the constraint its weight when it is linearized. -/
  noise : NoiseModel α
  /-- The largest deviation that still counts as satisfied. -/
  tolerance : α
  /-- Whether a violation costs an error instead of being refused. -/
  allowError : Bool

structure FunctionFactor (α : Type) where
  key : Key
  measured : Vec α
  noise : NoiseModel α
  measurement : Measurement α

structure CustomFactor (α : Type) where
  kind : FactorKind
  keys : List Key
  noise : NoiseModel α
  measured : Value α
  /-- The residual at values of the keys, and its Jacobian if the flag is set. -/
  evaluate : List (Value α) → Bool → Evaluated α (Residual α)

inductive Factor (α : Type) where
  | prior (f : PriorFactor α)
  | between (f : BetweenFactor α)
  | equality (f : EqualityFactor α)
  | function (f : FunctionFactor α)
  | custom (f : CustomFactor α)

namespace Factor

variable {α : Type}

def kind : Factor α → FactorKind
  | prior _ => .prior
  | between _ => .between
  | equality _ => .equality
  | function _ => .function
  | custom f => f.kind

def keys : Factor α → List Key
  | prior f => [f.key]
  | between f => [f.first, f.second]
  | equality f => [f.key]
  | function f => [f.key]
  | custom f => f.keys

def noise : Factor α → NoiseModel α
  | prior f => f.noise
  | between f => f.noise
  | equality f => f.noise
  | function f => f.noise
  | custom f => f.noise

def measured : Factor α → Value α
  | prior f => f.prior
  | between f => f.measured
  | equality f => f.feasible
  | function f => .rn f.measured
  | custom f => f.measured

def dimension (f : Factor α) : Nat := f.noise.dim

end Factor

end Smoothing
