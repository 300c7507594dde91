import Smoothing.Decimal.Parse
import Smoothing.Event.Text
import Smoothing.Key.Parse
import Smoothing.Text.Pattern.Reader

/-!
# Directives of a log filter

A directive is written as a level, or as the beginning of the names it is about, with a span and a
field in brackets and a level after an equals sign: `name[span{field=value}]=level`. It is read one
character after the other.

Blanks around a directive take no part in that, but the places of its parts are counted without them
and looked up in the text as it was written. So a directive with blanks before it is about other
names.
-/

namespace Smoothing.CommandLine

structure FieldTest where
  name : String
  value? : Option String
deriving DecidableEq, Repr

structure Directive where
  /-- The beginning of the names it is about; all names if there is none. -/
  target? : Option String
  /-- The name of the spans it is about; no span is needed if there is none. -/
  span? : Option String
  fields : List FieldTest
  /-- The most detailed level it shows; no level at all if there is none. -/
  level? : Option Level
deriving Repr

inductive DirectiveError where
  | malformed
  | field (cause : Text.PatternError)
  | level
deriving DecidableEq, Repr

def DirectiveError.message : DirectiveError → String
  | .malformed => "invalid filter directive"
  | .field cause => s!"invalid field filter: {cause.message}"
  | .level =>
    "error parsing level filter: expected one of \"off\", \"error\", \"warn\", \"info\", " ++
    "\"debug\", \"trace\", or a number 0-5"

/-! ### Parts of a directive -/

def levelOfNumber? : Nat → Option (Option Level)
  | 0 => some none
  | 1 => some (some .error)
  | 2 => some (some .warn)
  | 3 => some (some .info)
  | 4 => some (some .debug)
  | 5 => some (some .trace)
  | _ => none

def levelOfName? (text : String) : Option (Option Level) :=
  match String.ofList (text.toList.map Char.toLower) with
  | "off" => some none
  | "error" => some (some .error)
  | "warn" => some (some .warn)
  | "info" => some (some .info)
  | "debug" => some (some .debug)
  | "trace" => some (some .trace)
  | _ => none

def readLevel? (text : String) : Option (Option Level) :=
  match readNumber UInt64.size text.toList with
  | .ok n => levelOfNumber? n
  | .error _ => levelOfName? text

def startsName (c : Char) : Bool :=
  c == '-' || c == ':' || c == '_' || Text.isAlphabetic c || Text.isNumeric c

/-- Reads a field: its name, and what stands between the first two equals signs. That is a number,
or else a pattern. -/
def FieldTest.ofText (text : String) : Except DirectiveError FieldTest :=
  match text.splitOn "=" with
  | name :: value :: _ =>
    if (Decimal.read? value).isSome then .ok ⟨name, some value⟩
    else match Text.Pattern.check value with
      | .ok () => .ok ⟨name, some value⟩
      | .error cause => .error (.field cause)
  | name :: [] => .ok ⟨name, none⟩
  | [] => .ok ⟨text, none⟩

/-- The characters of a text from one place to another, both counted in bytes. -/
def slice (text : String) (first last : Nat) : String :=
  String.ofList (go 0 text.toList)
where
  go (place : Nat) : List Char → List Char
    | [] => []
    | c :: cs =>
      let rest := go (place + c.utf8Size) cs
      if first ≤ place ∧ place < last then c :: rest else rest

/-! ### Reading -/

inductive Reading where
  | start
  | name
  | span (first : Nat)
  | field (first : Nat)
  | bracket
  | closed
  | level (first : Nat)
deriving DecidableEq, Repr

namespace Directive

def blank : Directive := ⟨none, none, [], some .trace⟩

def step (text : String) (d : Directive) (place : Nat) (c : Char) :
    Reading → Except DirectiveError (Directive × Reading)
  | .start =>
    if c = '[' then .ok (d, .span (place + 1))
    else if startsName c then .ok (d, .name)
    else .error .malformed
  | .name =>
    let named := { d with target? := some (slice text 0 place) }
    if c = '=' then .ok (named, .level (place + 1))
    else if c = '[' then .ok (named, .span (place + 1))
    else .ok (d, .name)
  | .span first =>
    let name := slice text first place
    if c = ']' then .ok ({ d with span? := some name }, .closed)
    else if c = '\x7b' then
      .ok ({ d with span? := if name = "" then none else some name }, .field (place + 1))
    else .ok (d, .span first)
  | .field first =>
    if c = '\x7d' then
      let field := slice text first place
      if field = "" then .error .malformed
      else do return ({ d with fields := d.fields ++ [← FieldTest.ofText field] }, .bracket)
    else .ok (d, .field first)
  | .bracket => if c = ']' then .ok (d, .closed) else .error .malformed
  | .closed => if c = '=' then .ok (d, .level (place + 1)) else .error .malformed
  | .level first => .ok (d, .level first)

/-- The directive at the end of its text. A level that is left out is the most detailed one. -/
def finish (text : String) (d : Directive) : Reading → Except DirectiveError Directive
  | .name =>
    match readLevel? text with
    | some level? => .ok { d with level? := level? }
    | none => .ok { d with target? := some text }
  | .level first =>
    let level := slice text first text.utf8ByteSize
    if level = "" then .ok d
    else match readLevel? level with
      | some level? => .ok { d with level? := level? }
      | none => .error .level
  | .closed => .ok d
  | .start | .span _ | .field _ | .bracket => .error .malformed

def readFrom (text : String) (d : Directive) (place : Nat) (state : Reading) :
    List Char → Except DirectiveError Directive
  | [] => finish text d state
  | c :: cs => do
    let (d, state) ← step text d place c state
    readFrom text d (place + c.utf8Size) state cs

def ofText? (text : String) : Except DirectiveError Directive :=
  readFrom text blank 0 .start (Text.withoutBlanks text.toList)

/-- Whether it is about spans, by their name or by the value of a field. -/
def needsSpan (d : Directive) : Bool := d.span?.isSome || d.fields.any (·.value?.isSome)

end Directive

end Smoothing.CommandLine
