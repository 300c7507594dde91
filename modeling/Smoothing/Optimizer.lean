import Smoothing.Linear.Subgraph

/-!
# Optimizer states

An optimizer is a problem with a configuration and all that is needed to improve it: an order and a
solver for the linear problems, parameters, and a damping. States are never changed; a step gives a
new one. The error at the configuration is kept beside it.
-/

namespace Smoothing

abbrev OptimizerRun (α β : Type) := Logged (Event α) (OptimizerError α) β

def OptimizerError.stop {α β : Type} (e : OptimizerError α) : OptimizerRun α β :=
  Logged.failWith .optimizer e

def ParameterError.stop {α β : Type} (e : ParameterError α) : OptimizerRun α β :=
  (OptimizerError.parameters e).stop

structure Optimizer (α : Type) where
  graph : FactorGraph α
  config : Config α
  ordering : EliminationOrder
  solver : LinearSolver α
  params : Params α
  lambda : α
  error : α

variable {α : Type} [Scalar α]

/-! ### Parameters -/

namespace Params

def isDamping (lambda : α) : Bool := Scalar.isFinite lambda && decide (0 ≤ lambda)

def refused? (p : Params α) : Option (ParameterError α) :=
  if !isDamping p.initialLambda then some (.initialLambda p.initialLambda)
  else if !Scalar.isFinite p.increase || decide (p.increase ≤ 1) then some (.increase p.increase)
  else if !(decide (0 < p.decrease) && decide (p.decrease ≤ 1)) then some (.decrease p.decrease)
  else if !(Scalar.isFinite p.minRejected && decide (0 < p.minRejected)) then
    some (.minRejected p.minRejected)
  else if p.maxAttempts = 0 then some .noAttempts
  else none

def validate (p : Params α) : OptimizerRun α Unit :=
  match p.refused? with
  | some e => e.stop
  | none => pure ()

def reportAll (p : Params α) : OptimizerRun α Unit := Logged.report (.configuration p)

end Params

namespace Optimizer

/-! ### States -/

/-- The state at the start. The graph has factors, the configuration has a value for every variable,
the order is one of these variables and the error is finite. -/
def build (graph : FactorGraph α) (config : Config α) (ordering : EliminationOrder)
    (solver : LinearSolver α) : OptimizerRun α (Optimizer α) := do
  if graph.isEmpty then OptimizerError.emptyProblem.stop
  else
    (graph.validate config).mapCause .problem
    (ordering.validate graph.keys).mapCause .problem
    let error ← (graph.error config).mapCause .problem
    if !Scalar.isFinite error then (OptimizerError.initialError error).stop
    else
      let params : Params α := Params.default
      return ⟨graph, config, ordering, solver, params, params.initialLambda, error⟩

def withLambda (s : Optimizer α) (lambda : α) : OptimizerRun α (Optimizer α) :=
  if !Scalar.isFinite lambda || decide (lambda < 0) then (ParameterError.lambda lambda).stop
  else return { s with lambda := lambda }

/-- The state with other parameters; the damping starts again. -/
def withParams (s : Optimizer α) (params : Params α) : OptimizerRun α (Optimizer α) := do
  params.validate
  return { s with params := params, lambda := params.initialLambda }

def advance (s : Optimizer α) (config : Config α) (error lambda : α) : Optimizer α :=
  { s with config := config, error := error, lambda := lambda }

def reportConfig (s : Optimizer α) (v : Verbosity) : OptimizerRun α Unit :=
  Logged.reportIf (.config ≤ v) (.config s.config)

def linearize (s : Optimizer α) (method : Method) (v : Verbosity) :
    OptimizerRun α (GaussianGraph α) := do
  let linear ← (s.graph.linearize s.config).mapCause .problem
  Logged.reportIf (.linear ≤ v) (.linearized method linear)
  return linear

def update (s : Optimizer α) (v : Verbosity) : OptimizerRun α (BlockVector α) := do
  let linear ← s.linearize .gaussNewton v
  let δ ← (s.solver.solve linear s.ordering).mapCause .linear
  Logged.reportIf (.delta ≤ v) (.update .gaussNewton δ)
  return δ

def moved (s : Optimizer α) (δ : BlockVector α) : OptimizerRun α (Config α) :=
  Logged.lift ((s.config.retract δ).mapError .problem)

def errorAt (s : Optimizer α) (c : Config α) : OptimizerRun α α :=
  (s.graph.error c).mapCause .problem

end Optimizer

end Smoothing
