import Smoothing.DisjointSets
import Smoothing.Linear.Solver

/-!
# Conjugate gradients on a subgraph

The factors of a problem are split into a subgraph `A₁`, made of all factors on one variable and a
spanning forest of the others, and the rest `A₂`. The subgraph is eliminated: `R₁ x̄ = c₁`. With
`x = x̄ + R₁⁻¹ y` and `B = A₂ R₁⁻¹` the whole problem becomes `(1 + BᵀB) y = Bᵀ (b₂ - A₂ x̄)`, which
conjugate gradients solve in few steps.
-/

namespace Smoothing

structure GradientParams (α : Type) where
  maxIterations : Nat
  /-- The residual may be this fraction of the first residual. -/
  relativeTolerance : α
  absoluteTolerance : α
  /-- Whether the best solution is used if the iteration cap is hit. -/
  acceptUnconverged : Bool
deriving Repr

def GradientParams.default {α : Type} [Scalar α] : GradientParams α := ⟨500, 1e-10, 1e-12, false⟩

structure SubgraphSolver (α : Type) where
  mask : List Bool
  params : GradientParams α

namespace SubgraphSolver

variable {α : Type} [Scalar α]

/-! ### The subgraph -/

/-- Whether a candidate comes no later than another: by error, then by index. -/
def candidateLE (a b : α × Nat) : Bool :=
  if Scalar.totalLE a.1 b.1 && Scalar.totalLE b.1 a.1 then decide (a.2 ≤ b.2)
  else Scalar.totalLE a.1 b.1

def insertCandidate (a : α × Nat) : List (α × Nat) → List (α × Nat)
  | [] => [a]
  | b :: bs => if candidateLE a b then a :: b :: bs else b :: insertCandidate a bs

def sortCandidates (as : List (α × Nat)) : List (α × Nat) := as.foldr insertCandidate []

/-- The factors that are not on exactly one variable, with their errors and indices. -/
def candidates (c : Config α) : Nat → List (Factor α) → FactorGraph.Run α (List (α × Nat))
  | _, [] => pure []
  | i, f :: fs =>
    if f.keys.length = 1 then candidates c (i + 1) fs
    else do
      let e ← FactorGraph.atFactor i (f.error c)
      let rest ← candidates c (i + 1) fs
      return (e, i) :: rest

/-- Takes candidates in order, each if its variables are in different sets of those taken before;
the answer is the indices of those that are taken. -/
def forest (keysOf : Nat → List Key) : DisjointSets → List (α × Nat) → List Nat
  | _, [] => []
  | s, (_, i) :: rest =>
    let (s, roots) := s.findAll (keysOf i)
    if roots.Nodup then i :: forest keysOf (s.unionAll roots) rest
    else forest keysOf s rest

def build (g : FactorGraph α) (c : Config α) (params : GradientParams α) :
    FactorGraph.Run α (SubgraphSolver α) := do
  g.validate c
  let cs ← candidates c 0 g.factors
  let keysOf i := ((g.factors[i]?).map Factor.keys).getD []
  let chosen := forest keysOf DisjointSets.empty (sortCandidates cs)
  let mask := g.factors.zipIdx.map fun (f, i) => f.keys.length == 1 || chosen.contains i
  Logged.report (.subgraphChosen (mask.countP id) mask.length)
  return ⟨mask, params⟩

/-- Splits a problem into the subgraph and the rest; factors past the mask are in the subgraph. -/
def split (s : SubgraphSolver α) (g : GaussianGraph α) :
    LinearRun α (GaussianGraph α × GaussianGraph α) :=
  if g.size < s.mask.length then (LinearError.sizes (.maskLength g.size s.mask.length)).stop
  else
    let marked := g.factors.zipIdx.map fun (f, i) => (f, s.mask.getD i true)
    pure (⟨(marked.filter (·.2)).map (·.1)⟩, ⟨(marked.filter (!·.2)).map (·.1)⟩)

/-! ### Conjugate gradients -/

/-- The operator `y + BᵀB y`. -/
def apply (net : BayesNet α) (rest : GaussianGraph α) (y : BlockVector α) :
    LinearRun α (BlockVector α) := do
  let x ← net.backsubstitute y
  let products ← Logged.fromOption (rest.multiply? x)
  let sums ← Logged.fromOption (rest.transposeMultiply? products)
  let z ← net.backsubstituteTransposed sums
  return BlockVector.axpy 1 y z

structure Iterate (α : Type) where
  solution : BlockVector α
  residual : BlockVector α
  direction : BlockVector α
  residualSq : α
  bestNorm : α
  best : BlockVector α

namespace Iterate

def norm (s : Iterate α) : α := Scalar.sqrt s.residualSq

def start (rhs : BlockVector α) : Iterate α :=
  let zero := rhs.zerosLike
  let residualSq := rhs.normSq
  ⟨zero, rhs, rhs, residualSq, Scalar.sqrt residualSq, zero⟩

def next (s : Iterate α) (image : BlockVector α) (curvature : α) : Iterate α :=
  let step := s.residualSq / curvature
  let solution := BlockVector.axpy step s.direction s.solution
  let residual := BlockVector.axpy (-step) image s.residual
  let residualSq := residual.normSq
  let norm := Scalar.sqrt residualSq
  { solution := solution
    residual := residual
    direction := BlockVector.axpy (residualSq / s.residualSq) s.direction residual
    residualSq := residualSq
    bestNorm := if norm < s.bestNorm then norm else s.bestNorm
    best := if norm < s.bestNorm then solution else s.best }

/-- One step, which needs a direction of positive curvature. -/
def step (operator : BlockVector α → LinearRun α (BlockVector α)) (s : Iterate α) :
    LinearRun α (Iterate α) := do
  let image ← operator s.direction
  let curvature := s.direction.dot image
  if !Scalar.isFinite curvature || decide (curvature ≤ 0) then
    (LinearError.lostDefiniteness curvature).stop
  else return s.next image curvature

/-- At most `n` steps, up to the first residual below the threshold. The flag says whether there is
one; `i` is the number of the next step. -/
def run (operator : BlockVector α → LinearRun α (BlockVector α)) (threshold : α) :
    Nat → Nat → Iterate α → LinearRun α (Bool × Iterate α)
  | 0, _, s => return (false, s)
  | n + 1, i, s => do
    let s ← s.step operator
    Logged.report (.gradientStep i s.norm)
    if s.norm ≤ threshold then do
      Logged.report (.gradientConverged i s.norm)
      return (true, s)
    else run operator threshold n (i + 1) s

end Iterate

/-- The solution `x̄ + R₁⁻¹ y`. -/
def combine (net : BayesNet α) (xbar y : BlockVector α) : LinearRun α (BlockVector α) := do
  let x ← net.backsubstitute y
  return BlockVector.axpy 1 x xbar

/-- The right-hand side `Bᵀ (b₂ - A₂ x̄)`. -/
def rightHandSide (net : BayesNet α) (rest : GaussianGraph α) (xbar : BlockVector α) :
    LinearRun α (BlockVector α) :=
  if rest.fits xbar then do
    let residuals := rest.factors.map fun f => f.rhs - f.multiply xbar
    let sums ← Logged.fromOption (rest.transposeMultiply? residuals)
    net.backsubstituteTransposed sums
  else Logged.sizes

/-- Solves a problem from the Bayes net of its subgraph, the rest of the problem and the solution of
the subgraph. -/
def conjugateGradient (s : SubgraphSolver α) (net : BayesNet α) (rest : GaussianGraph α)
    (xbar : BlockVector α) : LinearRun α (BlockVector α) := do
  let rhs ← rightHandSide net rest xbar
  let start := Iterate.start rhs
  let threshold := Scalar.max s.params.absoluteTolerance (s.params.relativeTolerance * start.norm)
  if start.norm ≤ threshold then combine net xbar start.solution
  else
    let cap := s.params.maxIterations
    let (converged, last) ← Iterate.run (apply net rest) threshold cap 1 start
    if converged then combine net xbar last.solution
    else
      let best ← combine net xbar last.best
      if s.params.acceptUnconverged then do
        Logged.report (.gradientCapped cap last.bestNorm)
        return best
      else (LinearError.notConverged cap last.bestNorm best).stop

/-- Solves a problem that starts with the linearizations of the factors the subgraph was chosen
from. -/
def solve (s : SubgraphSolver α) (g : GaussianGraph α) (o : EliminationOrder) :
    LinearRun α (BlockVector α) := do
  let (tree, rest) ← s.split g
  let net ← tree.eliminate o
  let xbar ← net.optimize
  if rest.isEmpty then return xbar else s.conjugateGradient net rest xbar

def solver (s : SubgraphSolver α) : LinearSolver α := ⟨"Subgraph PCG", s.solve⟩

end SubgraphSolver

end Smoothing
