import Smoothing.Decimal.Parse
import Smoothing.Event
import Smoothing.Key.Parse
import Smoothing.Simulation.PoseGraph

/-!
# Options of the command

The command simulates a pose graph and solves it. Options come in any order, each at most once, and
all have a value: after a blank, after an equals sign, or right behind the letter of a short name. A
value does not start with a dash unless it is attached.
-/

namespace Smoothing.CommandLine

inductive SolverKind where
  | direct (method : DirectMethod)
  | subgraph
deriving DecidableEq, Repr

inductive OrderKind where
  | natural
  | minDegree
deriving DecidableEq, Repr

structure Options where
  scenario : Scenario
  solvers : List SolverKind
  methods : List Method
  order : OrderKind
  maxIterations : Nat
  verbosity : Verbosity
deriving Repr

def Options.default : Options where
  scenario := ⟨.grid, 10, 0.05, 0.02, 42⟩
  solvers := [.direct .qr, .direct .cholesky, .subgraph]
  methods := [.gaussNewton, .levenbergMarquardt]
  order := .minDegree
  maxIterations := 100
  verbosity := .silent

inductive Opt where
  | topology
  | size
  | solver
  | optimizer
  | ordering
  | maxIterations
  | shiftSigma
  | rotationSigma
  | seed
  | verbosity
deriving DecidableEq, Repr

namespace Opt

def all : List Opt := [topology, size, solver, optimizer, ordering, maxIterations, shiftSigma,
  rotationSigma, seed, verbosity]

def longName : Opt → String
  | topology => "topology"
  | size => "size"
  | solver => "solver"
  | optimizer => "optimizer"
  | ordering => "ordering"
  | maxIterations => "max-iterations"
  | shiftSigma => "translation-sigma"
  | rotationSigma => "rotation-sigma"
  | seed => "seed"
  | verbosity => "verbosity"

def letter? : Opt → Option Char
  | topology => some 't'
  | size => some 'n'
  | solver => some 's'
  | optimizer => some 'o'
  | maxIterations => some 'm'
  | verbosity => some 'v'
  | ordering | shiftSigma | rotationSigma | seed => none

end Opt

/-! ### Values -/

def readCount? (text : String) : Option Nat := (readNumber UInt64.size text.toList).toOption

def readTopology? : String → Option Topology
  | "grid" => some .grid
  | "ring" => some .ring
  | _ => none

def readSolvers? : String → Option (List SolverKind)
  | "qr" => some [.direct .qr]
  | "cholesky" => some [.direct .cholesky]
  | "pcg" => some [.subgraph]
  | "all" => some Options.default.solvers
  | _ => none

def readMethods? : String → Option (List Method)
  | "gn" => some [.gaussNewton]
  | "lm" => some [.levenbergMarquardt]
  | "all" => some Options.default.methods
  | _ => none

def readOrder? : String → Option OrderKind
  | "natural" => some .natural
  | "min-degree" => some .minDegree
  | _ => none

def Options.set? (o : Options) (name : Opt) (value : String) : Option Options :=
  match name with
  | .topology => do
    let t ← readTopology? value
    return { o with scenario := { o.scenario with topology := t } }
  | .size => do
    let n ← readCount? value
    return { o with scenario := { o.scenario with size := n } }
  | .solver => do
    let s ← readSolvers? value
    return { o with solvers := s }
  | .optimizer => do
    let m ← readMethods? value
    return { o with methods := m }
  | .ordering => do
    let k ← readOrder? value
    return { o with order := k }
  | .maxIterations => do
    let n ← readCount? value
    return { o with maxIterations := n }
  | .shiftSigma => do
    let σ ← Decimal.read? value
    return { o with scenario := { o.scenario with shiftSigma := σ } }
  | .rotationSigma => do
    let σ ← Decimal.read? value
    return { o with scenario := { o.scenario with rotationSigma := σ } }
  | .seed => do
    let n ← readCount? value
    return { o with scenario := { o.scenario with seed := UInt64.ofNat n } }
  | .verbosity => do
    let v ← (Verbosity.ofText? value).toOption
    return { o with verbosity := v }

/-! ### Arguments -/

inductive Request where
  | run (options : Options)
  | help (long : Bool)
  | refused
deriving Repr

inductive Argument where
  | opt (name : Opt) (value? : Option String)
  | help (long : Bool)
  | finish
  | unknown
deriving Repr

def Argument.ofLong (cs : List Char) : Argument :=
  let name := String.ofList (cs.takeWhile (· ≠ '='))
  let value? := match cs.dropWhile (· ≠ '=') with
    | _ :: v => some (String.ofList v)
    | [] => none
  if cs.isEmpty then .finish
  else if name = "help" then if value?.isNone then .help true else .unknown
  else match Opt.all.find? (·.longName == name) with
    | some o => .opt o value?
    | none => .unknown

/-- Reads an argument that starts with one dash: a letter and what follows it. -/
def Argument.ofShort (c : Char) (cs : List Char) : Argument :=
  if c = 'h' then .help false
  else match Opt.all.find? (·.letter? == some c) with
    | none => .unknown
    | some o => .opt o (match cs with
      | [] => none
      | '=' :: v => some (String.ofList v)
      | v => some (String.ofList v))

def Argument.ofText (text : String) : Argument :=
  match text.toList with
  | '-' :: '-' :: cs => ofLong cs
  | '-' :: c :: cs => ofShort c cs
  | _ => .unknown

def isDetachedValue (text : String) : Bool := text.toList.head? != some '-' || text == "-"

/-- Reads arguments one after the other; `seen` are the options that are set. -/
def readArguments (o : Options) (seen : List Opt) : List String → Request
  | [] => .run o
  | text :: rest =>
    match Argument.ofText text with
    | .unknown => .refused
    | .help long => .help long
    | .finish => if rest.isEmpty then .run o else .refused
    | .opt name value? =>
      if seen.contains name then .refused
      else match value?, rest with
        | some v, rest => match o.set? name v with
          | some o => readArguments o (name :: seen) rest
          | none => .refused
        | none, v :: rest =>
          if isDetachedValue v then match o.set? name v with
            | some o => readArguments o (name :: seen) rest
            | none => .refused
          else .refused
        | none, [] => .refused

def Request.ofArguments (args : List String) : Request := readArguments Options.default [] args

end Smoothing.CommandLine
