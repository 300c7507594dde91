import Smoothing.Text.Alphabetic
import Smoothing.Text.Pattern.Class

/-!
# Reading a pattern

A pattern is read from the left. A group in parentheses has switches of its own, which are in force
up to its end; signs for repetition follow what they repeat. A pattern that has been read through is
refused if it nests too deep, or asks for the limits of words while it is about characters.
-/

namespace Smoothing.Text.Pattern

structure Progress where
  switches : Switches
  branches : Branches
  /-- The switches around each open group and what was read before it, the innermost group first. -/
  around : List (Switches × Branches)
  /-- Whether what was read last can be repeated. -/
  repeatable : Bool
  names : List (List Char)
  /-- Whether the pattern asks for the limits of words among all characters. -/
  wordLimits : Bool

namespace Progress

def start : Progress := ⟨.start, .empty, [], false, [], false⟩

def enter (p : Progress) (s : Switches) : Progress :=
  { p with switches := s, branches := .empty, around := (p.switches, p.branches) :: p.around,
           repeatable := false }

def add (p : Progress) (height : Nat) : Progress :=
  { p with branches := p.branches.add height, repeatable := true }

def leave? (p : Progress) : Option Progress :=
  match p.around with
  | [] => none
  | (s, outer) :: around =>
    some (add { p with switches := s, branches := outer, around := around } (p.branches.height + 1))

def atom? (p : Progress) (a : Atom) : Option Progress :=
  if p.switches.admits a then
    let limits := p.wordLimits || (a == .wordLimit && p.switches.unicode)
    some { p.add 0 with wordLimits := limits }
  else none

end Progress

/-! ### Groups -/

/-- Reads switches up to the colon or parenthesis after them, given the signs before; a bar turns
the switches after it off. The answer is the switches, the signs, the last one first, and what
follows. -/
def switches? (s : Switches) (signs : List Char) :
    List Char → Option (Switches × List Char × List Char)
  | [] => none
  | c :: cs =>
    let on := !signs.contains '-'
    if c = ':' ∨ c = ')' then
      if signs.head? = some '-' then none else some (s, signs, c :: cs)
    else if signs.contains c then none
    else if c = 'i' then switches? { s with anyCase := on } (c :: signs) cs
    else if c = 'u' then switches? { s with unicode := on } (c :: signs) cs
    else if c = 'x' then switches? { s with spaced := on } (c :: signs) cs
    else if c ∈ ['-', 's', 'm', 'U', 'R'] then switches? s (c :: signs) cs
    else none

def isGroupName : List Char → Bool
  | [] => false
  | c :: cs => (c == '_' || isAlphabetic c) &&
    cs.all fun c => c ∈ ['_', '.', '[', ']'] || isAlphabetic c || isNumeric c

/-- Opens a group with a name, which ends at a closing angle. -/
def named? (p : Progress) (cs : List Char) : Option (Progress × List Char) :=
  let name := cs.takeWhile (· != '>')
  match cs.dropWhile (· != '>') with
  | [] => none
  | _ :: rest =>
    if isGroupName name && !p.names.contains name then
      some ({ p.enter p.switches with names := name :: p.names }, rest)
    else none

/-- Reads what follows an opening parenthesis, up to the contents of the group. Instead of a group
there can be switches alone, for the rest of the group around them. What comes before or after a
place cannot be asked for. -/
def group? (p : Progress) (cs : List Char) : Option (Progress × List Char) :=
  match p.switches.next cs with
  | '?' :: '<' :: '!' :: _ => none
  | '?' :: '<' :: '=' :: _ => none
  | '?' :: 'P' :: '<' :: cs => named? p cs
  | '?' :: '<' :: cs => named? p cs
  | '?' :: cs => do
    match ← switches? p.switches [] cs with
    | (s, _, ':' :: cs) => some (p.enter s, cs)
    | (_, [], _) => none
    | (s, _, _ :: cs) =>
      some ({ p with switches := s, branches := p.branches.add 0, repeatable := false }, cs)
    | _ => none
  | cs => some (p.enter p.switches, cs)

/-! ### Patterns -/

/-- What follows a sign for repetition without the question mark that asks for as few as can be. -/
def unmarked : List Char → List Char
  | '?' :: cs => cs
  | cs => cs

def part? (p : Progress) : List Char → Option (Progress × List Char)
  | [] => none
  | '(' :: cs => group? p cs
  | ')' :: cs => do return (← p.leave?, cs)
  | '|' :: cs => some ({ p with branches := p.branches.split, repeatable := false }, cs)
  | '[' :: cs => do
    let (height, cs) ← class? p.switches cs
    return (p.add height, cs)
  | '\\' :: cs => do
    let (a, cs) ← escaped? p.switches cs
    return (← p.atom? a, cs)
  | '.' :: cs => do return (← p.atom? .any, cs)
  | c :: cs =>
    if c ∈ ['?', '*', '+'] then
      if p.repeatable then some ({ p with branches := p.branches.repeatLast }, unmarked cs)
        else none
    else if c = '\x7b' then none
    else do
      let place := c = '^' ∨ c = '$'
      return (← p.atom? (if place then .place else .literal c false), cs)

def readParts : Nat → Progress → List Char → Except PatternError Unit
  | 0, _, _ => .error .malformed
  | steps + 1, p, cs =>
    match p.switches.next cs with
    | [] =>
      if !p.around.isEmpty || heightLimit < p.branches.height then .error .malformed
      else if p.wordLimits then .error .wordLimit
      else .ok ()
    | cs =>
      match part? p cs with
      | none => .error .malformed
      | some (p, cs) => readParts steps p cs

/-- Whether a text is a pattern that can be searched for, and why not. Each step reads a character
at least. -/
def check (text : String) : Except PatternError Unit :=
  readParts (text.length + 1) .start text.toList

end Smoothing.Text.Pattern
