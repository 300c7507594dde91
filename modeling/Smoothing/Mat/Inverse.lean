import Smoothing.Mat

/-!
# Inverses of small matrices

A matrix with up to four rows is inverted by its cofactors: the inverse is the adjugate divided by
the determinant. The entries of a matrix are given by a function of row and column, counted from
zero.
-/

namespace Smoothing.Mat

variable {α : Type} [Scalar α]

def minor2 (a : Nat → Nat → α) (x y p q : Nat) : α := a x p * a y q - a y p * a x q

/-- The determinant of the rows `x`, `y` and `z` and the columns `p`, `q` and `s`, times a sign. -/
def minor3 (a : Nat → Nat → α) (sign : α) (x y z p q s : Nat) : α :=
  sign * a x p * a y q * a z s - sign * a x p * a z q * a y s - sign * a x q * a y p * a z s
    + sign * a x q * a z p * a y s + sign * a x s * a y p * a z q - sign * a x s * a z p * a y q

def others : Nat → Nat × Nat × Nat
  | 0 => (1, 2, 3)
  | 1 => (0, 2, 3)
  | 2 => (0, 1, 3)
  | _ => (0, 1, 2)

/-- An entry of the adjugate of a matrix with four rows: the determinant of what is left without row
`j` and column `i`, with the sign of the place. -/
def adjugate4 (a : Nat → Nat → α) (i j : Nat) : α :=
  let (x, y, z) := others j
  let (p, q, s) := others i
  minor3 a (if (i + j) % 2 = 0 then 1 else -1) x y z p q s

def inverse1? (a : Nat → Nat → α) : Option (Mat α) :=
  if a 0 0 == 0 then none else some (ofRows 1 [⟨[1 / a 0 0]⟩])

def inverse2? (a : Nat → Nat → α) : Option (Mat α) :=
  let det := minor2 a 0 1 0 1
  if det == 0 then none
  else some (ofRows 2 [⟨[a 1 1 / det, -a 0 1 / det]⟩, ⟨[-a 1 0 / det, a 0 0 / det]⟩])

def inverse3? (a : Nat → Nat → α) : Option (Mat α) :=
  let (m, n, k) := (minor2 a 1 2 1 2, minor2 a 1 2 0 2, minor2 a 1 2 0 1)
  let det := a 0 0 * m - a 0 1 * n + a 0 2 * k
  if det == 0 then none
  else some (ofRows 3 [
    ⟨[m / det, minor2 a 2 0 1 2 / det, minor2 a 0 1 1 2 / det]⟩,
    ⟨[-n / det, minor2 a 0 2 0 2 / det, minor2 a 1 0 0 2 / det]⟩,
    ⟨[k / det, minor2 a 2 0 0 1 / det, minor2 a 0 1 0 1 / det]⟩])

def inverse4? (a : Nat → Nat → α) : Option (Mat α) :=
  let det := a 0 0 * adjugate4 a 0 0 + a 1 0 * adjugate4 a 0 1 + a 2 0 * adjugate4 a 0 2 +
    a 3 0 * adjugate4 a 0 3
  if det == 0 then none else some (ofFn 4 4 fun i j => adjugate4 a i j * (1 / det))

end Smoothing.Mat
