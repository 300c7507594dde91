import Smoothing.Linear.Columns

/-!
# Elimination with an index

The factors of an elimination are kept at numbered places, and for every variable that is not
eliminated yet there is a list of the places of the factors that mention it. So the factors of a
variable are found without a search. A place is empty once its factor has been gathered, and a
remainder comes to a new place.
-/

namespace Smoothing

namespace Elimination

variable {α : Type}

structure Pool (α : Type) where
  /-- The factors at their places; a factor that has been gathered has left its place empty. -/
  places : List (Option (GaussianFactor α))
  involved : KeyMap (List Nat)

structure IndexedStep (α : Type) where
  conditional : Conditional α
  gathered : List Nat

namespace Pool

def empty : Pool α := ⟨[], KeyMap.empty⟩

def listed (p : Pool α) (k : Key) : List Nat := (p.involved.get? k).getD []

/-- Lists a place for a variable. -/
def listFor (i : Nat) (m : KeyMap (List Nat)) (k : Key) : KeyMap (List Nat) :=
  m.insert k ((m.get? k).getD [] ++ [i])

/-- Puts a factor at a new place, which is listed for each of its variables. -/
def add (p : Pool α) (f : GaussianFactor α) : Pool α :=
  ⟨p.places ++ [some f], f.keys.foldl (listFor p.places.length) p.involved⟩

def addRemainder (p : Pool α) : Option (GaussianFactor α) → Pool α
  | none => p
  | some f => p.add f

def ofFactors (fs : List (GaussianFactor α)) : Pool α := fs.foldl add empty

def left (p : Pool α) : List (GaussianFactor α) := p.places.filterMap id

/-- Takes the factors away that are at the given places, each with its place. All places have to be
in range. -/
def take? : List Nat → List (Option (GaussianFactor α)) →
    Option (List (Nat × GaussianFactor α) × List (Option (GaussianFactor α)))
  | [], places => some ([], places)
  | i :: is, places =>
    match places[i]? with
    | none => none
    | some none => take? is places
    | some (some f) => (take? is (places.set i none)).map fun a => ((i, f) :: a.1, a.2)

/-- Gathers the factors that are listed for a variable, which is then taken out of the index. -/
def gather? (p : Pool α) (k : Key) : Option (List (Nat × GaussianFactor α) × Pool α) :=
  (take? (p.listed k) p.places).map fun a => (a.1, ⟨a.2, p.involved.erase k⟩)

variable [Scalar α]

def step (dims : KeyMap Nat) (o : EliminationOrder) (k : Key) (p : Pool α) :
    LinearRun α (IndexedStep α × Pool α) := do
  let (gathered, p) ← Logged.fromOption (p.gather? k)
  match dims.get? k with
  | none => (LinearError.degenerate k).stop
  | some dim =>
    if gathered.isEmpty then (LinearError.degenerate k).stop
    else do
      let (conditional, remainder) ← eliminateOneIndexed k dim (gathered.map (·.2)) dims o
      return (⟨conditional, gathered.map (·.1)⟩, p.addRemainder remainder)

/-- Eliminates variables in order. The answer is the steps and the pool after them. -/
def run (dims : KeyMap Nat) (o : EliminationOrder) : List Key → Pool α →
    LinearRun α (List (IndexedStep α) × Pool α)
  | [], p => pure ([], p)
  | k :: ks, p => do
    let (s, p) ← step dims o k p
    let (steps, p) ← run dims o ks p
    return (s :: steps, p)

end Pool

end Elimination

def GaussianGraph.eliminateIndexed {α : Type} [Scalar α] (g : GaussianGraph α)
    (o : EliminationOrder) : LinearRun α (BayesNet α) := do
  let dims ← g.dims
  let (steps, p) ← Elimination.Pool.run dims o o.keys (.ofFactors g.factors)
  match p.left with
  | [] => return ⟨steps.map (·.conditional)⟩
  | f :: _ => (LinearError.ordering (.unreached f.keys)).stop

end Smoothing
