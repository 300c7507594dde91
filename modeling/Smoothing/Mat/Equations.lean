import Smoothing.Mat

/-!
# Systems of equations

A system `A X = B` with as many equations as unknowns is solved by elimination. In every step the
equation in which the first unknown counts most is put first, and multiples of it are added to the
others so that they are free of that unknown. What is left is solved from its end. Equations are
only exchanged and added to one another, so the system keeps its solutions.
-/

namespace Smoothing.Mat

variable {α : Type} [Scalar α]

structure Equation (α : Type) where
  left : List α
  right : Vec α

namespace Equation

def first (e : Equation α) : α := e.left.headD 0

def subMul (c : α) (x y : Vec α) : Vec α := Vec.zipWith (fun a b => -a * c + b) x y

/-- The equation without its first unknown, after a multiple of another equation is taken away. -/
def reduce (pivot e : Equation α) : Equation α :=
  let c := e.first * (1 / pivot.first)
  ⟨(subMul c ⟨pivot.left.tail⟩ ⟨e.left.tail⟩).coords, subMul c pivot.right e.right⟩

end Equation

/-- The place of the first number whose modulus is greatest and exceeds `most`, with places counted
from `i`; if there is none, it is `place`. -/
def placeOfLargest (most : α) (place i : Nat) : List α → Nat
  | [] => place
  | a :: as =>
    if most < Scalar.abs a then placeOfLargest (Scalar.abs a) i (i + 1) as
    else placeOfLargest most place (i + 1) as

/-- The equations with the one first in which the first unknown counts most. It changes places with
the first one. -/
def pivotFirst : List (Equation α) → List (Equation α)
  | [] => []
  | e :: es =>
    match placeOfLargest (Scalar.abs e.first) 0 1 (es.map Equation.first) with
    | 0 => e :: es
    | i + 1 => es.getD i e :: es.set i e

/-- Brings `n` equations to a form in which each one is free of the first unknown of the one before.
This fails if an unknown is in none of the equations that are left for it. -/
def staircase? : Nat → List (Equation α) → Option (List (Equation α))
  | 0, _ => some []
  | n + 1, es =>
    match pivotFirst es with
    | [] => none
    | e :: es =>
      if e.first == 0 then none
      else do return e :: (← staircase? n (es.map e.reduce))

/-- The values of the unknowns of equations of which each is free of the first unknown of the one
before. -/
def substitute : List (Equation α) → List (Vec α)
  | [] => []
  | e :: es =>
    let xs := substitute es
    let right := (List.zip e.left.tail xs).foldr (fun cx y => Equation.subMul cx.1 cx.2 y) e.right
    right.unscale e.first :: xs

def inverse? (n : Nat) (a : Nat → Nat → α) : Option (Mat α) := do
  let equation (i : Nat) : Equation α :=
    ⟨(List.range n).map (a i), ⟨(List.range n).map fun j => if i = j then 1 else 0⟩⟩
  return ofRows n (substitute (← staircase? n ((List.range n).map equation)))

end Smoothing.Mat
