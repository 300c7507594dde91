import Smoothing.Linear.Factor

/-!
# Layouts

A layout gives every variable a range of columns, one after the other. A linear factor becomes dense
rows in a layout: its blocks at their columns and zeros elsewhere.
-/

namespace Smoothing

/-- Keys with the widths of their columns, from left to right. -/
abbrev Layout := List (Key × Nat)

namespace Layout

def width (l : Layout) : Nat := l.foldr (fun e n => e.2 + n) 0

/-- The first column and the width of every key, where the first key starts at a given column. -/
def ranges (start : Nat) : Layout → List (Key × (Nat × Nat))
  | [] => []
  | (k, w) :: rest => (k, (start, w)) :: ranges (start + w) rest

end Layout

namespace GaussianFactor

variable {α : Type} [Scalar α]

/-- The rows of the block of a key, zero rows if the factor does not mention it. -/
def blockRows (f : GaussianFactor α) (k : Key) (w : Nat) : List (Vec α) :=
  match f.blockFor? k with
  | some m => m.rows
  | none => List.replicate f.height (Vec.zero w)

/-- The rows of a factor in a layout, each followed by the given entries. -/
def rowsIn (f : GaussianFactor α) (l : Layout) (last : List (Vec α)) : List (Vec α) :=
  l.foldr (fun kw rows => List.zipWith Vec.append (f.blockRows kw.1 kw.2) rows) last

def augmentedRows (f : GaussianFactor α) (l : Layout) : List (Vec α) :=
  f.rowsIn l (f.rhs.coords.map fun b => ⟨[b]⟩)

def plainRows (f : GaussianFactor α) (l : Layout) : List (Vec α) :=
  f.rowsIn l (List.replicate f.height ⟨[]⟩)

end GaussianFactor

end Smoothing
