import Smoothing.Text.Blank
import Smoothing.Text.Numeric

/-!
# Patterns: switches and atoms

A pattern is a regular expression. Here it is only asked whether a text is one that can be searched
for by an automaton, so of a part of a pattern nothing is kept but what decides that.

The texts at hand hold no closing brace. Where a brace opens a number or a name, that is never
closed, and the text is no pattern. Of the characters nothing is known but their numbers: a pattern
that asks for capital and small letters at once, or for a class of characters by its name, is
refused unless it is about bytes or the class lies among the first 128 characters.
-/

namespace Smoothing.Text

inductive PatternError where
  /-- It breaks the grammar, or asks for what is not known of characters. -/
  | malformed
  /-- It asks where words begin and end among all characters, which no automaton over bytes
  finds. -/
  | wordLimit
deriving DecidableEq, Repr

def PatternError.message : PatternError → String
  | .malformed => "error building NFA"
  | .wordLimit =>
    "unsupported regex feature for DFAs: cannot build DFAs for regexes with Unicode word " ++
    "boundaries; switch to ASCII word boundaries, or heuristically enable Unicode word " ++
    "boundaries or use a different regex engine"

namespace Pattern

structure Switches where
  /-- A letter stands for its capital and its small form. -/
  anyCase : Bool
  /-- The pattern is about characters. Otherwise it is about bytes, and has to leave characters
  whole. -/
  unicode : Bool
  spaced : Bool
deriving DecidableEq, Repr

def Switches.start : Switches := ⟨false, true, false⟩

/-! ### Blanks -/

/-- The characters without blanks and comments at their start. A comment begins at a number sign and
ends with its line; the flag says whether one is being read. -/
def dropSpace : Bool → List Char → List Char
  | _, [] => []
  | true, c :: cs => dropSpace (c != '\n') cs
  | false, c :: cs =>
    if isBlank c then dropSpace false cs
    else if c = '#' then dropSpace true cs
    else c :: cs

def Switches.next (s : Switches) (cs : List Char) : List Char :=
  if s.spaced then dropSpace false cs else cs

/-- The next character that means something, where the text of a comment is taken to mean something
too. -/
def Switches.glance? (s : Switches) (cs : List Char) : Option Char :=
  if s.spaced then
    match cs.dropWhile isBlank with
    | '#' :: cs => (cs.dropWhile isBlank).head?
    | cs => cs.head?
  else cs.head?

/-! ### Atoms -/

inductive Atom where
  /-- One character. It may be given by two hexadecimal digits, and then it can also be a byte. -/
  | literal (c : Char) (isByte : Bool)
  /-- The digits, blanks or letters of words, or all characters but these. -/
  | family (negated : Bool)
  | any
  /-- The beginning or end of a word, or what is neither. -/
  | wordLimit
  | place
deriving DecidableEq, Repr

def Switches.admits (s : Switches) : Atom → Bool
  | .literal c isByte => if s.unicode then !s.anyCase else !isByte || c.toNat < 128
  | .family negated => !s.unicode && !negated
  | .any => s.unicode
  | .wordLimit | .place => true

/-- Whether an atom is allowed as a member of a class. A class of bytes holds no characters of
several bytes. -/
def Switches.admitsMember (s : Switches) : Atom → Bool
  | .literal c _ => if s.unicode then !s.anyCase else c.toNat < 128
  | .family negated => !s.unicode && !negated
  | .any | .wordLimit | .place => false

def hexDigit? (c : Char) : Option Nat :=
  if c.isDigit then some (c.toNat - '0'.toNat)
  else if 'a' ≤ c ∧ c ≤ 'f' then some (c.toNat - 'a'.toNat + 10)
  else if 'A' ≤ c ∧ c ≤ 'F' then some (c.toNat - 'A'.toNat + 10)
  else none

def hexDigits? (s : Switches) : Nat → Nat → List Char → Option (Nat × List Char)
  | 0, n, cs => some (n, cs)
  | count + 1, n, cs =>
    match s.next cs with
    | [] => none
    | c :: cs => do hexDigits? s count (16 * n + (← hexDigit? c)) cs

def numbered? (s : Switches) (count : Nat) (cs : List Char) : Option (Atom × List Char) := do
  let (n, cs) ← hexDigits? s count 0 cs
  if h : n.isValidChar then some (.literal (Char.ofNatAux n h) (count == 2), cs) else none

def controls : List (Char × Char) :=
  [('a', '\x07'), ('f', '\x0c'), ('t', '\t'), ('n', '\n'), ('r', '\r'), ('v', '\x0b')]

/-- Reads what follows a backslash. A sign that is neither letter nor digit stands for itself. -/
def escaped? (s : Switches) : List Char → Option (Atom × List Char)
  | [] => none
  | 'x' :: cs => numbered? s 2 cs
  | 'u' :: cs => numbered? s 4 cs
  | 'U' :: cs => numbered? s 8 cs
  | c :: cs =>
    if c ∈ ['d', 's', 'w'] then some (.family false, cs)
    else if c ∈ ['D', 'S', 'W'] then some (.family true, cs)
    else if c ∈ ['b', 'B', '<', '>'] then some (.wordLimit, cs)
    else if c ∈ ['A', 'z'] then some (.place, cs)
    else match controls.lookup c with
      | some control => some (.literal control false, cs)
      | none => if c.toNat < 128 && !c.isAlphanum then some (.literal c false, cs) else none

end Pattern

end Smoothing.Text
