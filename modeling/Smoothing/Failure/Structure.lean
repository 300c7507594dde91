import Smoothing.Failure.Message
import Smoothing.Text.Listing
import Smoothing.Text.Quoted

/-!
# Failures in full

A failure written with everything it carries: the label of each cause and its fields, from the
outermost one in. The command ends with this text; the labels alone say what kind of failure it is.
-/

namespace Smoothing

open Text Decimal

def labelled (label : String) (fields : List String) : String := s!"{label}({commas fields})"

def record (label : String) (fields : List (String × String)) : String :=
  label ++ " \x7b " ++ commas (fields.map fun f => s!"{f.1}: {f.2}") ++ " \x7d"

def Key.fullText (k : Key) : String :=
  record "Key" [("tag", s!"'{k.tag}'"), ("index", toString k.index)]

def Manifold.label : Manifold → String
  | .rn => "RN"
  | m => m.text

namespace GroupError

def label : GroupError → String
  | tangentDimension _ _ => "InvalidTangentDimension"
  | dimension _ _ => "DimensionMismatch"
  | notFinite => "InvalidNumber"
  | manifold _ _ => "TypeMismatch"

def fullText (e : GroupError) : String :=
  match e with
  | tangentDimension expected actual | dimension expected actual =>
    record e.label [("expected", toString expected), ("actual", toString actual)]
  | notFinite => e.label
  | manifold expected actual =>
    record e.label [("expected", expected.label), ("actual", actual.label)]

end GroupError

namespace LinearError

variable {α : Type}

def label : LinearError α → String
  | degenerate _ => "Degenerate"
  | lostDefiniteness _ => "FactorizationFailed"
  | singular => "SingularMatrix"
  | notConverged _ _ _ => "NotConverged"
  | missingKey _ => "MissingKey"
  | sizes _ => "DimensionMismatch"
  | ordering _ => "InvalidOrdering"

/-- The failure in full, but without the best solution of an iteration that did not converge. -/
def fullText (e : LinearError Float) : String :=
  match e with
  | degenerate key => record e.label [("key", key.fullText)]
  | lostDefiniteness curvature => labelled e.label [quoted (curvatureDetail curvature)]
  | singular => e.label
  | notConverged iterations residual _ =>
    record e.label [("iterations", toString iterations), ("residual", pointed residual)]
  | missingKey key => labelled e.label [key.fullText]
  | sizes conflict => labelled e.label [quoted conflict.message]
  | ordering conflict => labelled e.label [quoted conflict.message]

end LinearError

namespace FactorError

variable {α : Type}

def label : FactorError α → String
  | dimension _ _ => "InvalidDimension"
  | manifold _ _ _ => "TypeMismatch"
  | missingKey _ => "MissingKey"
  | noJacobian | jacobianShape _ _ _ _ => "JacobianFailed"
  | jacobianNotFinite | residualNotFinite => "NumericalInstability"
  | selfLoop _ | noise _ | tolerance _ | linear _ => "InvalidParameters"
  | infeasible _ _ => "Infeasible"

def fullText (e : FactorError Float) : String :=
  match e with
  | dimension expected actual =>
    record e.label [("expected", toString expected), ("actual", toString actual)]
  | manifold key expected actual =>
    record e.label [("key", key.fullText), ("expected", expected.label), ("actual", actual.label)]
  | missingKey key => labelled e.label [key.fullText]
  | infeasible key violation =>
    record e.label [("key", key.fullText), ("violation", pointed violation)]
  | e => labelled e.label [quoted e.detail]

end FactorError

namespace ProblemError

variable {α : Type}

def label : ProblemError α → String
  | missingKey _ _ => "MissingKey"
  | noise _ => "InvalidNoiseModel"
  | ordering _ => "InvalidOrdering"
  | key _ => "InvalidKey"
  | factor _ _ => "Factor"
  | group _ => "Manifold"

def labels (e : ProblemError α) : List String :=
  e.label :: match e with
    | factor _ cause => [cause.label]
    | group cause => [cause.label]
    | _ => []

def fullText (e : ProblemError Float) : String :=
  match e with
  | missingKey k use => record e.label [("key", k.fullText), ("context", quoted use.text)]
  | noise cause => labelled e.label [quoted cause.message]
  | ordering cause => labelled e.label [quoted cause.message]
  | .key cause => labelled e.label [quoted cause.message]
  | factor index cause => record e.label [("index", toString index), ("source", cause.fullText)]
  | group cause => labelled e.label [cause.fullText]

end ProblemError

namespace OptimizerError

variable {α : Type}

def label : OptimizerError α → String
  | emptyProblem => "EmptyProblem"
  | parameters _ => "InvalidParameters"
  | stalled _ _ _ => "Stalled"
  | initialError _ | stepError _ => "NumericalInstability"
  | problem _ => "Core"
  | linear _ => "LinAlg"

def labels (e : OptimizerError α) : List String :=
  e.label :: match e with
    | problem cause => cause.labels
    | linear cause => [cause.label]
    | _ => []

def fullText (e : OptimizerError Float) : String :=
  match e with
  | emptyProblem => e.label
  | parameters cause => labelled e.label [quoted cause.message]
  | stalled attempts lambda error => record e.label
      [("attempts", toString attempts), ("lambda", pointed lambda), ("error", pointed error)]
  | initialError error => labelled e.label [quoted (initialDetail error)]
  | stepError error => labelled e.label [quoted (stepDetail error)]
  | problem cause => labelled e.label [cause.fullText]
  | linear cause => labelled e.label [cause.fullText]

end OptimizerError

namespace Failure

def fullText : Failure Float → String
  | problem cause => labelled "Core" [cause.fullText]
  | factor cause => labelled "Factor" [cause.fullText]
  | optimizer cause => labelled "Optimizer" [cause.fullText]
  | linear cause => labelled "LinearAlgebra" [cause.fullText]
  | group cause => labelled "Manifold" [cause.fullText]

end Failure

end Smoothing
