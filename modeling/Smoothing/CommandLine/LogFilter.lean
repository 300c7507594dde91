import Smoothing.CommandLine.Directive
import Smoothing.Failure.Structure

/-!
# Log lines and their filter

The command shows events as lines of a log. A filter selects them: it is a list of directives, and
for a line the most specific one that is about the line's part of the program counts. Lines have one
field, the message, and are in no span.
-/

namespace Smoothing.CommandLine

structure LogLine where
  level : Level
  scope : Scope
  text : String
deriving Repr

/-- What lies behind an event, where its text does not tell it. Pivots are counted from one. -/
def sourceText : Event Float → String
  | .pivotRefused place =>
    " | Source: " ++ labelled "Numeric"
      [record "NonPositivePivot" [("index", toString (place + 1))]]
  | _ => ""

def LogLine.ofEvent (e : Event Float) : LogLine := ⟨e.level, e.scope, e.text ++ sourceText e⟩

/-! ### Texts of lines -/

def colorCode : Level → String
  | .error => "31"
  | .warn => "33"
  | .info => "32"
  | .debug => "34"
  | .trace => "35"

def coloredLevel (l : Level) : String := s!"\x1b[{colorCode l}m{l.text}\x1b[0m"

/-- Where an event was reported. For the more detailed levels that is a place nobody needs to
know. -/
def LogLine.location (l : LogLine) : String :=
  match l.level with
  | .debug | .trace => "-"
  | _ => l.scope.text

/-- The line as it is shown. No clock is read, so a dash stands for the time. -/
def LogLine.shown (l : LogLine) : String := s!"[{coloredLevel l.level} - {l.location}] {l.text}"

/-! ### Filters -/

/-- A filter and what was said about directives that are passed over. -/
structure LogFilter where
  directives : List Directive
  complaints : List String
deriving Repr

namespace LogFilter

def add (f : LogFilter) (text : String) : LogFilter :=
  match Directive.ofText? text with
  | .ok d => { f with directives := f.directives ++ [d] }
  | .error e =>
    { f with complaints := f.complaints ++ ["ignoring \x60" ++ text ++ "\x60: " ++ e.message] }

/-- Reads directives separated by commas. Without any, what is at least of level `info` is shown. -/
def ofText (text : String) : LogFilter :=
  let f := ((text.splitOn ",").filter (· ≠ "")).foldl add ⟨[], []⟩
  if f.directives.isEmpty then { f with directives := [⟨none, none, [], some .info⟩] } else f

/-- Whether one directive is more general than another: it has a shorter name, or one as long and
fewer fields. -/
def moreGeneral (d e : Directive) : Bool :=
  let length (d : Directive) : Nat := (d.target?.map (·.utf8ByteSize + 1)).getD 0
  decide (length d < length e) ||
    (length d == length e && decide (d.fields.length < e.fields.length))

def applies (scope : Scope) (d : Directive) : Bool :=
  !d.needsSpan && d.fields.all (·.name == "message") && match d.target? with
    | none => true
    | some t => t.toList.isPrefixOf scope.text.toList

/-- The more specific of two directives; of two that are equally so, the later one. -/
def moreSpecific (best : Option Directive) (d : Directive) : Option Directive :=
  match best with
  | none => some d
  | some b => if moreGeneral d b then some b else some d

def admits (f : LogFilter) (l : LogLine) : Bool :=
  match (f.directives.filter (applies l.scope)).foldl moreSpecific none with
  | some ⟨_, _, _, some level⟩ => decide (l.level.rank ≤ level.rank)
  | _ => false

end LogFilter

end Smoothing.CommandLine
