import Smoothing.Text.Pattern.Basic
import Smoothing.Text.Pattern.Nesting

/-!
# Classes of characters in a pattern

A class is written in brackets: its members one after the other, ranges with a bar between their
ends, and other classes in brackets of their own. Two classes are joined by a doubled sign. The
complement of a class of bytes holds bytes that are no characters, so it is refused.
-/

namespace Smoothing.Text.Pattern

def classNames : List String :=
  ["alnum", "alpha", "ascii", "blank", "cntrl", "digit", "graph", "lower", "print",
    "punct", "space", "upper", "word", "xdigit"]

/-- Reads the name of a class between colons, after the bracket before it: whether its complement is
meant, and what follows its bracket. -/
def className? : List Char → Option (Bool × List Char)
  | ':' :: cs =>
    let (negated, cs) := match cs with
      | '^' :: cs => (true, cs)
      | cs => (false, cs)
    match cs.dropWhile (· != ':') with
    | ':' :: ']' :: rest =>
      if String.ofList (cs.takeWhile (· != ':')) ∈ classNames then some (negated, rest) else none
    | _ => none
  | _ => none

def Switches.admitsNamed (s : Switches) (negated : Bool) : Bool :=
  if s.unicode then !s.anyCase else !negated

def classAtom? (s : Switches) : List Char → Option (Atom × List Char)
  | [] => none
  | '\\' :: cs => escaped? s cs
  | c :: cs => some (.literal c false, cs)

/-- Reads a member of a class or a range. A bar that the end of the class or another bar follows is
not the bar of a range. -/
def member? (s : Switches) (cs : List Char) : Option (List Char) := do
  let (a, rest) ← classAtom? s cs
  match s.next rest with
  | [] => none
  | '-' :: after =>
    if s.glance? after ∈ [some ']', some '-'] then
      if s.admitsMember a then some ('-' :: after) else none
    else
      let (b, rest) ← classAtom? s (s.next after)
      match a, b with
      | .literal first _, .literal last _ =>
        if first ≤ last && s.admitsMember a && s.admitsMember b then some rest else none
      | _, _ => none
  | rest => if s.admitsMember a then some rest else none

inductive Standing where
  /-- At the start, where a bar or a closing bracket stands for itself. -/
  | first
  | bars
  | inside
deriving DecidableEq, Repr

def opened? (s : Switches) (cs : List Char) : Option (List Char) :=
  match s.next cs with
  | '^' :: cs => if s.unicode then some cs else none
  | cs => some cs

/-- Reads members up to the end of a class, given what was read of it and of the classes around it,
the innermost one first; the answer is the height of the outermost class and what follows it. The
number of steps is bounded. -/
def members? (s : Switches) :
    Nat → List Members → Members → Standing → List Char → Option (Nat × List Char)
  | 0, _, _, _, _ => none
  | steps + 1, around, m, standing, cs =>
    let itself (c : Char) (standing : Standing) (cs : List Char) : Option (Nat × List Char) :=
      if s.admitsMember (.literal c false) then members? s steps around (m.add 0) standing cs
        else none
    match standing, s.next cs with
    | _, [] => none
    | .first, '-' :: cs => itself '-' .bars cs
    | .bars, '-' :: cs => itself '-' .bars cs
    | .first, ']' :: cs => itself ']' .inside cs
    | _, '[' :: cs =>
      match className? cs with
      | some (negated, cs) =>
        if s.admitsNamed negated then members? s steps around (m.add 0) .inside cs else none
      | none => do members? s steps (m :: around) .empty .first (← opened? s cs)
    | _, ']' :: cs =>
      match around with
      | [] => some (m.height + 1, cs)
      | outer :: around => members? s steps around (outer.add (m.height + 1)) .inside cs
    | _, '&' :: '&' :: cs => members? s steps around m.join .inside cs
    | _, '-' :: '-' :: cs => members? s steps around m.join .inside cs
    | _, '~' :: '~' :: cs => members? s steps around m.join .inside cs
    | _, cs => do members? s steps around (m.add 0) .inside (← member? s cs)

/-- Reads a class after its opening bracket; the answer is its height and what follows. Each step
reads a character at least. -/
def class? (s : Switches) (cs : List Char) : Option (Nat × List Char) := do
  members? s (cs.length + 1) [] .empty .first (← opened? s cs)

end Smoothing.Text.Pattern
