import Smoothing.CommandLine.Help
import Smoothing.CommandLine.LogFilter
import Smoothing.CommandLine.Options
import Smoothing.Failure.Structure
import Smoothing.Optimizer.Run

/-!
# The command

The command simulates a pose graph, solves it with every chosen solver and method, and shows a table
of the outcomes. A run that fails is only noted; a scenario that makes no sense ends the command.
-/

namespace Smoothing.CommandLine

open Text Decimal

inductive CommandError where
  | tooSmall
  | failed (failure : Failure Float)

/-- A part of the command, which shows lines of the log. -/
abbrev Command (β : Type) := Logged LogLine (Failure Float) β

def say (level : Level) (text : String) : Command Unit := Logged.report ⟨level, .command, text⟩

def watch {ε β : Type} (wrap : ε → Failure Float) (x : Logged (Event Float) ε β) : Command β :=
  (x.mapEvents LogLine.ofEvent).mapCause wrap

/-! ### Runs -/

structure Outcome where
  method : Method
  solver : SolverKind
  summary : Summary Float
  rmsDistance : Float
deriving Repr

def methodName : Method → String
  | .gaussNewton => "GN"
  | .levenbergMarquardt => "LM"

def SolverKind.text : SolverKind → String
  | direct m => m.text
  | subgraph => "PCG"

def OrderKind.order (k : OrderKind) (g : FactorGraph Float) : EliminationOrder :=
  match k with
  | natural => EliminationOrder.natural g
  | minDegree => EliminationOrder.minDegree g

def SolverKind.solver (k : SolverKind) (p : PoseGraph) : Command (LinearSolver Float) :=
  match k with
  | direct m => return m.solver
  | subgraph => do
    let params := { GradientParams.default with acceptUnconverged := true }
    let s ← watch .problem (SubgraphSolver.build p.graph p.initial params)
    return s.solver

def thresholds : Thresholds Float := ⟨1e-5, 1e-5⟩

def runMethod (s : Optimizer Float) (v : Verbosity) :
    Method → OptimizerRun Float (Report Float)
  | .gaussNewton => s.gaussNewton thresholds v
  | .levenbergMarquardt => s.levenbergMarquardt thresholds v

def outcome? (p : PoseGraph) (s : Optimizer Float) (k : SolverKind) (v : Verbosity) (m : Method) :
    Command (Option Outcome) := do
  match ← (watch .optimizer (runMethod s v m)).attempt with
  | .ok report =>
    let rms ← Logged.lift
      ((PoseGraph.rmsDistance report.optimizer.config p.truth).mapError .problem)
    return some ⟨m, k, report.summary, rms⟩
  | .error .sizes => Logged.sizes
  | .error (.cause e) =>
    say .warn s!"{methodName m} with {k.text} failed: {e.compactChain}"
    return none

def outcomesOf (o : Options) (p : PoseGraph) (k : SolverKind) : Command (List Outcome) := do
  let solver ← k.solver p
  let order := o.order.order p.graph
  let start ← watch .optimizer (Optimizer.build p.graph p.initial order solver)
  let params := { Params.default with
    maxIterations := o.maxIterations, verbosity := o.verbosity }
  let start ← watch .optimizer (start.withParams params)
  let outcomes ← o.methods.mapM (outcome? p start k o.verbosity)
  return outcomes.filterMap id

def outcomes (o : Options) : Command (List Outcome) := do
  let p ← watch id (PoseGraph.simulate o.scenario)
  say .info <| s!"Graph Statistics: poses: {p.initial.size}, odometry edges: {p.odometry}, " ++
    s!"loop closures: {p.closures}"
  let outcomes ← o.solvers.mapM (outcomesOf o p)
  return outcomes.flatten

/-! ### The table -/

def widths : List Nat := [10, 9, 12, 12, 5, 9, 10, 22]

def row (cells : List String) : String := " | ".intercalate (List.zipWith padRight widths cells)

def header : String := row
  ["Optimizer", "Solver", "Init Error", "Final Error", "Iters", "Time(ms)", "RMS trans", "Status"]

def rule : String := "".pushn '-' 110

/-- The row of an outcome. No time is measured, so a dash stands for it. -/
def Outcome.row (r : Outcome) : String := CommandLine.row [
  methodName r.method, r.solver.text, scientific 6 r.summary.initialError,
  scientific 6 r.summary.finalError, toString r.summary.iterations, "-", fixed 4 r.rmsDistance,
  r.summary.status.text]

def table (rs : List Outcome) : List String :=
  ["Final summary table:", header, rule] ++ rs.map Outcome.row ++ [rule]

/-- All that is done with options: the runs and the table. A failure is shown before the command
ends. -/
def perform (o : Options) : Command Unit := do
  match ← (outcomes o).attempt with
  | .ok rs => (table rs).forM (say .info)
  | .error .sizes => Logged.sizes
  | .error (.cause e) =>
    say .warn e.chain
    Logged.fail e

/-! ### What the command leaves behind -/

structure Result where
  status : Nat
  shown : List String
  complaints : String
deriving Repr

def endingText (text : String) : String := s!"Error: {text}\n"

def Result.ofOptions (filter : LogFilter) (o : Options) : Result :=
  let before := lines filter.complaints
  if o.scenario.size < 2 then ⟨1, [], before ++ endingText (quoted "size must be at least 2")⟩
  else
    let run := perform o
    let shown := (run.events.filter filter.admits).map LogLine.shown
    match run.outcome with
    | .ok () => ⟨0, shown, before⟩
    | .error (.cause e) => ⟨1, shown, before ++ endingText e.fullText⟩
    | .error .sizes => ⟨101, shown, before⟩

def refusal : String :=
  "error: invalid arguments\n\nUsage: optimize_pose_graph [OPTIONS]\n\n" ++
    "For more information, try '--help'.\n"

/-- The result of the command for a request and a log filter. The filter is read first, so what is
said about it is said in any case. -/
def Result.ofRequest (filter : LogFilter) : Request → Result
  | .run options => Result.ofOptions filter options
  | .help long => ⟨0, helpLines long, lines filter.complaints⟩
  | .refused => ⟨2, [], lines filter.complaints ++ refusal⟩

end Smoothing.CommandLine
