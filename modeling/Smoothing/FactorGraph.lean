import Smoothing.Factor.Evaluate

/-!
# Factor graphs

A problem is a list of factors over keyed variables. The graph holds no values: its error
`Σ ½ ‖R_i e_i‖²` and its linearization are taken at a configuration. A configuration that lacks a
variable is refused before any factor is evaluated; after that the first factor that fails decides.
-/

namespace Smoothing

structure FactorGraph (α : Type) where
  factors : List (Factor α)

namespace FactorGraph

variable {α : Type}

abbrev Run (α β : Type) := Logged (Event α) (ProblemError α) β

def size (g : FactorGraph α) : Nat := g.factors.length

def isEmpty (g : FactorGraph α) : Bool := g.factors.isEmpty

def keys (g : FactorGraph α) : KeySet := KeyMap.setOf (g.factors.flatMap Factor.keys)

def missing? (c : Config α) : Nat → List (Factor α) → Option (ProblemError α)
  | _, [] => none
  | i, f :: fs =>
    match f.keys.find? fun k => !c.contains k with
    | some k => some (.missingKey k (.factor i f.kind))
    | none => missing? c (i + 1) fs

/-- Refuses a configuration that lacks a variable of the graph. -/
def validate (g : FactorGraph α) (c : Config α) : Run α Unit :=
  match missing? c 0 g.factors with
  | some e => Logged.failWith .problem e
  | none => pure ()

/-- The answer of the factor at an index; its failure is reported. -/
def atFactor {β : Type} (i : Nat) (r : Evaluated α β) : Run α β :=
  match r with
  | .ok b => pure b
  | .error .sizes => Logged.sizes
  | .error (.cause e) => Logged.failWith .problem (.factor i e)

/-- Evaluates the factors in order, up to the first one that fails. -/
def each {β : Type} (eval : Factor α → Evaluated α β) : Nat → List (Factor α) → Run α (List β)
  | _, [] => pure []
  | i, f :: fs => do
    let b ← atFactor i (eval f)
    let bs ← each eval (i + 1) fs
    return b :: bs

variable [Scalar α]

def error (g : FactorGraph α) (c : Config α) : Run α α := do
  g.validate c
  let errors ← each (·.error c) 0 g.factors
  return Scalar.sum errors

/-- The linearization at a configuration: one linear factor for each factor, in order. -/
def linearize (g : FactorGraph α) (c : Config α) : Run α (GaussianGraph α) := do
  g.validate c
  let factors ← each (·.linearize c) 0 g.factors
  return ⟨factors⟩

def equals (g h : FactorGraph α) (tolerance : α) : Bool :=
  g.size == h.size && (List.zip g.factors h.factors).all fun fg => fg.1.equals fg.2 tolerance

end FactorGraph

end Smoothing
