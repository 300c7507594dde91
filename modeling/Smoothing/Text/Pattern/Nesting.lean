/-!
# How deep a pattern nests

The parts of a pattern form a tree. A part that holds no other has height zero, and a part is one
higher than the highest in it. Parts that stand next to each other are held together by a part of
their own, and so are branches; a part alone is not. A pattern is refused if its tree is too high.

A pattern is read from the left, so its tree is not there when a part ends; for what is open the
heights of the parts that are finished are kept.
-/

namespace Smoothing.Text.Pattern

def heightLimit : Nat := 250

def together : List Nat → Nat
  | [] => 0
  | [h] => h
  | hs => hs.foldl max 0 + 1

/-! ### Branches of a group -/

/-- What was read of a group: the heights of the parts of the branch that is being read and of the
branches before it, the last one first. -/
structure Branches where
  parts : List Nat
  finished : List Nat

namespace Branches

def empty : Branches := ⟨[], []⟩

def add (b : Branches) (height : Nat) : Branches := { b with parts := height :: b.parts }

/-- A sign for the repetition of the last part has been read. -/
def repeatLast (b : Branches) : Branches :=
  match b.parts with
  | [] => b
  | h :: hs => { b with parts := (h + 1) :: hs }

def split (b : Branches) : Branches := ⟨[], together b.parts :: b.finished⟩

def height (b : Branches) : Nat := together (together b.parts :: b.finished)

end Branches

/-! ### Members of a class -/

/-- What was read of a class: the heights of its members since the last sign that joins classes, the
last one first, and the height of what stands before that sign. -/
structure Members where
  items : List Nat
  joined : Option Nat

namespace Members

def empty : Members := ⟨[], none⟩

def add (m : Members) (height : Nat) : Members := { m with items := height :: m.items }

def height (m : Members) : Nat :=
  match m.joined with
  | none => together m.items
  | some h => max h (together m.items) + 1

def join (m : Members) : Members := ⟨[], some m.height⟩

end Members

end Smoothing.Text.Pattern
