import Smoothing.EliminationOrder
import Smoothing.Linear.BayesNet
import Smoothing.Linear.Layout

/-!
# Elimination

The variables of a linear problem are eliminated one after the other. For a variable all factors
that mention it are stacked into one matrix, its columns first, then those of the separator (the
other variables of these factors) and the right-hand side last. The triangular factor of the matrix
gives the conditional of the variable in its upper rows and a factor on the separator in the others.
-/

namespace Smoothing

variable {α : Type}

namespace EliminationOrder

/-- Whether one key comes before another: by the place in the order, keys outside it last and by
themselves. -/
def precedes (o : EliminationOrder) (a b : Key) : Bool :=
  match o.position? a, o.position? b with
  | some i, some j => decide (i < j)
  | some _, none => true
  | none, some _ => false
  | none, none => decide (a < b)

def place (o : EliminationOrder) (k : Key) : List Key → List Key
  | [] => [k]
  | j :: js => if j = k then j :: js else if o.precedes k j then k :: j :: js else j :: o.place k js

/-- The keys of a list in order, each once. -/
def arrange (o : EliminationOrder) (ks : List Key) : List Key := ks.foldr o.place []

end EliminationOrder

namespace Elimination

/-- The other variables of factors, in the order in which they are eliminated. -/
def separator (o : EliminationOrder) (k : Key) (fs : List (GaussianFactor α)) : List Key :=
  o.arrange ((fs.flatMap GaussianFactor.keys).filter (· ≠ k))

def widths (dims : KeyMap Nat) : List Key → LinearRun α Layout
  | [] => pure []
  | k :: ks =>
    match dims.get? k with
    | none => Logged.fail (.missingKey k)
    | some w => do
      let rest ← widths dims ks
      return (k, w) :: rest

variable [Scalar α]

def pivotTolerance : α := 1e-10

/-- The stacked rows of factors, each with its right-hand side. -/
def stack (l : Layout) (fs : List (GaussianFactor α)) : Mat α :=
  Mat.ofRows (l.width + 1) (fs.flatMap (·.augmentedRows l))

def isNegligible (r : Mat α) (n : Nat) (scale : α) : Bool :=
  scale == 0 ||
    (List.range n).any fun i => decide (Scalar.abs (r.get i i) ≤ pivotTolerance * scale)

def blocksOf (r : Mat α) (i h : Nat) (l : Layout) (start : Nat) : Option (List (Key × Mat α)) :=
  (l.ranges start).mapM fun e => (r.block? i e.2.1 h e.2.2).map (e.1, ·)

def columnOf (r : Mat α) (i h j : Nat) : Option (Vec α) :=
  (r.block? i j h 1).map fun m => ⟨m.rows.map fun row => row.get 0⟩

def eliminateOne (k : Key) (dim : Nat) (fs : List (GaussianFactor α)) (dims : KeyMap Nat)
    (o : EliminationOrder) : LinearRun α (Conditional α × Option (GaussianFactor α)) := do
  let others ← widths dims (separator o k fs)
  let rows := GaussianGraph.height ⟨fs⟩
  if rows < dim then (LinearError.degenerate k).stop
  else
    let layout : Layout := (k, dim) :: others
    let cols := layout.width
    let ab := stack layout fs
    let scale := (ab.columns 0 cols).amax
    let r := ab.triangular
    if isNegligible r dim scale then do
      Logged.report (.negligiblePivot k scale)
      (LinearError.degenerate k).stop
    else
      let diagonal ← Logged.fromOption (r.block? 0 0 dim dim)
      let parents ← Logged.fromOption (blocksOf r 0 dim others dim)
      let d ← Logged.fromOption (columnOf r 0 dim cols)
      let conditional : Conditional α := ⟨k, diagonal, parents, d⟩
      let remaining := min rows cols - dim
      if others.isEmpty || remaining == 0 then return (conditional, none)
      else
        let blocks ← Logged.fromOption (blocksOf r dim remaining others dim)
        let b ← Logged.fromOption (columnOf r dim remaining cols)
        let remainder ←
          Logged.lift (GaussianFactor.ofBlocks? (blocks.map (·.1)) (blocks.map (·.2)) b)
        return (conditional, some remainder)

/-- Eliminates variables in order from a pool of factors. The answer is the conditionals and the
factors that are left. -/
def eliminateAll (dims : KeyMap Nat) (o : EliminationOrder) :
    List Key → List (GaussianFactor α) →
      LinearRun α (List (Conditional α) × List (GaussianFactor α))
  | [], pool => pure ([], pool)
  | k :: ks, pool =>
    let gathered := pool.filter (·.mentions k)
    let others := pool.filter fun f => !f.mentions k
    match dims.get? k with
    | none => (LinearError.degenerate k).stop
    | some dim =>
      if gathered.isEmpty then (LinearError.degenerate k).stop
      else do
        let (conditional, remainder) ← eliminateOne k dim gathered dims o
        let (conditionals, left) ← eliminateAll dims o ks (others ++ remainder.toList)
        return (conditional :: conditionals, left)

end Elimination

namespace GaussianGraph

variable [Scalar α]

/-- The Bayes net of a problem, if the order reaches all its variables and they are determined. -/
def eliminate (g : GaussianGraph α) (o : EliminationOrder) : LinearRun α (BayesNet α) := do
  let dims ← g.dims
  let (conditionals, left) ← Elimination.eliminateAll dims o o.keys g.factors
  match left with
  | [] => return ⟨conditionals⟩
  | f :: _ => (LinearError.ordering (.unreached f.keys)).stop

def optimize (g : GaussianGraph α) (o : EliminationOrder) : LinearRun α (BlockVector α) := do
  let net ← g.eliminate o
  net.optimize

end GaussianGraph

end Smoothing
