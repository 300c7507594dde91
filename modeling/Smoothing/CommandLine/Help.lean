import Smoothing.CommandLine.Options
import Smoothing.Text.Listing

/-!
# The explanation of the options

The explanation names every option with its value, says what it is for and what it is if nothing is
said. The longer form also explains the values that can be chosen.
-/

namespace Smoothing.CommandLine

namespace Opt

/-- What an option is for, unless its name says it. -/
def purpose : Opt → String
  | size => "Grid side length, or number of poses on the ring"
  | maxIterations => "Maximum number of optimization iterations"
  | shiftSigma => "Standard deviation of the translational odometry noise"
  | rotationSigma => "Standard deviation of the rotational odometry noise (radians)"
  | verbosity => "Optimizer verbosity: silent, error, lambda, try-lambda, config, delta, ..."
  | topology | solver | optimizer | ordering | seed => ""

def defaultText : Opt → String
  | topology => "grid"
  | size => "10"
  | solver | optimizer => "all"
  | ordering => "min-degree"
  | maxIterations => "100"
  | shiftSigma => "0.05"
  | rotationSigma => "0.02"
  | seed => "42"
  | verbosity => "silent"

def choices : Opt → List (String × String)
  | topology => [
      ("grid", "Snake path over an n×n grid, closures between neighbouring rows"),
      ("ring", "n poses around a circle, closures across the ring")]
  | solver => [("qr", ""), ("cholesky", ""), ("pcg", ""), ("all", "")]
  | optimizer => [("gn", ""), ("lm", ""), ("all", "")]
  | ordering => [("natural", ""), ("min-degree", "")]
  | size | maxIterations | shiftSigma | rotationSigma | seed | verbosity => []

def valueName (o : Opt) : String :=
  String.ofList (o.longName.toList.map fun c => if c = '-' then '_' else c.toUpper)

def usage (o : Opt) : String :=
  let letter := match o.letter? with
    | some c => s!"-{c}, "
    | none => "    "
  s!"  {letter}--{o.longName} <{o.valueName}>"

def explainsChoices (o : Opt) : Bool := o.choices.any (·.2 != "")

def defaultNote (o : Opt) : String := s!"[default: {o.defaultText}]"

def choicesNote (o : Opt) : String :=
  s!"[possible values: {Text.commas (o.choices.map (·.1))}]"

end Opt

def indent : String := "          "

def shortHelp (o : Opt) : List String :=
  let notes := o.defaultNote :: if o.choices.isEmpty then [] else [o.choicesNote]
  let text := " ".intercalate ([o.purpose].filter (· ≠ "") ++ notes)
  [o.usage, indent ++ text]

/-- The explanation of an option in the longer form: what it is for, its value if nothing is said,
and the values that can be chosen. Values with an explanation come first, one in a line. -/
def longHelp (o : Opt) : List String :=
  let purpose := if o.purpose = "" then [] else [o.purpose, ""]
  let explained := if o.explainsChoices then
      "Possible values:" :: o.choices.map (fun c => s!"- {c.1}: {c.2}") ++ [""]
    else []
  let notes := if o.choices.isEmpty || o.explainsChoices then [] else [o.choicesNote]
  o.usage :: (purpose ++ explained ++ o.defaultNote :: notes).map (indent ++ ·) ++ [""]

def helpLines (long : Bool) : List String :=
  let note := if long then "Print help (see a summary with '-h')"
    else "Print help (see more with '--help')"
  ["Optimize a noisy synthetic SE(2) pose graph", "", "Usage: optimize_pose_graph [OPTIONS]", "",
    "Options:"] ++ Opt.all.flatMap (if long then longHelp else shortHelp) ++
    ["  -h, --help", indent ++ note]

end Smoothing.CommandLine
