import Smoothing.Linear.Damping
import Smoothing.Mat.Triangular

/-!
# Bayes nets

The result of elimination: one conditional `R x_k + Σ S_p x_p = d` for every variable, where the
parents `p` are eliminated later. All conditionals together are a block triangular system, which is
solved backwards, and its transpose forwards.
-/

namespace Smoothing

structure Conditional (α : Type) where
  key : Key
  r : Mat α
  parents : List (Key × Mat α)
  d : Vec α

structure BayesNet (α : Type) where
  conditionals : List (Conditional α)
deriving Inhabited

namespace Conditional

variable {α : Type}

def dim (c : Conditional α) : Nat := c.d.size

def parentKeys (c : Conditional α) : List Key := c.parents.map (·.1)

variable [Scalar α]

def subMulVec (y : Vec α) (s : Mat α) (v : Vec α) : Vec α :=
  ⟨List.zipWith (fun y (r : Vec α) =>
    (List.zip r.coords v.coords).foldl (fun acc sv => acc - sv.1 * sv.2) y) y.coords s.rows⟩

def subParents (x : BlockVector α) : Vec α → List (Key × Mat α) → LinearRun α (Vec α)
  | y, [] => pure y
  | y, (p, s) :: ps =>
    match x.get? p with
    | none => Logged.fail (.missingKey p)
    | some v =>
      if s.height = y.size ∧ s.cols = v.size then subParents x (subMulVec y s v) ps
      else Logged.sizes

/-- The value of the variable from a right-hand side and the values of the parents. -/
def solveWith (c : Conditional α) (y : Vec α) (x : BlockVector α) : LinearRun α (Vec α) := do
  let rhs ← subParents x y c.parents
  if rhs.size < c.r.height then Logged.sizes
  else match c.r.solveUpper? rhs with
    | some v => pure v
    | none => (LinearError.degenerate c.key).stop

/-- Adds `-S_pᵀ z` to the right-hand side of every parent, which starts as the block of `x`. -/
def pushToParents (x : BlockVector α) (z : Vec α) :
    BlockVector α → List (Key × Mat α) → LinearRun α (BlockVector α)
  | g, [] => pure g
  | g, (p, s) :: ps =>
    let entry := (g.get? p).getD (x.blockOr p s.cols)
    if s.height = z.size ∧ s.cols = entry.size then
      pushToParents x z (g.insert p (Vec.axpy (-1) (s.transposeMulVec z) entry)) ps
    else Logged.sizes

end Conditional

namespace BayesNet

variable {α : Type}

def size (n : BayesNet α) : Nat := n.conditionals.length

def isEmpty (n : BayesNet α) : Bool := n.conditionals.isEmpty

variable [Scalar α]

def solveBackwards (rhs : Conditional α → Vec α) :
    List (Conditional α) → LinearRun α (BlockVector α)
  | [] => pure KeyMap.empty
  | c :: cs => do
    let x ← solveBackwards rhs cs
    let v ← c.solveWith (rhs c) x
    return x.insert c.key v

def optimize (n : BayesNet α) : LinearRun α (BlockVector α) :=
  solveBackwards Conditional.d n.conditionals

/-- The vector `R⁻¹ y`, where a missing block counts as zero. -/
def backsubstitute (n : BayesNet α) (y : BlockVector α) : LinearRun α (BlockVector α) :=
  solveBackwards (fun c => y.blockOr c.key c.dim) n.conditionals

/-- Solves the transposed conditionals from the first to the last. The right-hand sides changed so
far are in `g`, the solved blocks in `z`. -/
def solveForwards (x : BlockVector α) :
    BlockVector α → BlockVector α → List (Conditional α) → LinearRun α (BlockVector α)
  | _, z, [] => pure z
  | g, z, c :: cs => do
    let rhs := (g.get? c.key).getD (x.blockOr c.key c.dim)
    if rhs.size < c.r.height then Logged.sizes
    else match c.r.solveUpperTransposed? rhs with
      | none => (LinearError.degenerate c.key).stop
      | some v =>
        let g ← Conditional.pushToParents x v (g.erase c.key) c.parents
        solveForwards x g (z.insert c.key v) cs

/-- The vector `R⁻ᵀ x`, where a missing block counts as zero. -/
def backsubstituteTransposed (n : BayesNet α) (x : BlockVector α) : LinearRun α (BlockVector α) :=
  solveForwards x KeyMap.empty KeyMap.empty n.conditionals

end BayesNet

end Smoothing
