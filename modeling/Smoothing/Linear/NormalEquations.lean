import Smoothing.EliminationOrder
import Smoothing.Linear.Damping
import Smoothing.Linear.Layout
import Smoothing.Sparse.Cholesky

/-!
# Normal equations

A linear problem is laid out as one matrix `J` in the column layout of an order, with the residual
`r = -b`. The solution `x` of `JᵀJ x = -Jᵀr` is cut into blocks again.
-/

namespace Smoothing

structure Assembled (α : Type) where
  layout : Layout
  jacobian : Mat α
  residual : Vec α

namespace NormalEquations

variable {α : Type}

def layoutOf (dims : KeyMap Nat) : List Key → LinearRun α Layout
  | [] => pure []
  | k :: ks =>
    match dims.get? k with
    | none => (LinearError.degenerate k).stop
    | some w => do
      let rest ← layoutOf dims ks
      return (k, w) :: rest

def split (x : List α) : Layout → BlockVector α
  | [] => KeyMap.empty
  | (k, w) :: rest => (split (x.drop w) rest).insert k ⟨x.take w⟩

variable [Scalar α]

def assemble (g : GaussianGraph α) (o : EliminationOrder) : LinearRun α (Assembled α) := do
  let dims ← g.dims
  match dims.keys.find? fun k => !o.contains k with
  | some k => (LinearError.ordering (.uncovered k)).stop
  | none =>
    let layout ← layoutOf dims o.keys
    return {
      layout := layout
      jacobian := Mat.ofRows layout.width (g.factors.flatMap (·.plainRows layout))
      residual := ⟨g.factors.flatMap fun f => f.rhs.coords.map (- ·)⟩ }

def solve (g : GaussianGraph α) (o : EliminationOrder) : LinearRun α (BlockVector α) :=
  if o.isEmpty then pure KeyMap.empty
  else do
    let a ← assemble g o
    match (SparseSystem.ofLeastSquares a.jacobian a.residual).solve with
    | .error place => do
      Logged.report (.pivotRefused place)
      Logged.fail .singular
    | .ok x => if x.allFinite then return split x.coords a.layout else LinearError.singular.stop

end NormalEquations

end Smoothing
