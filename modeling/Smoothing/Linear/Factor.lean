import Smoothing.Linear.Error
import Smoothing.Mat

/-!
# Linear factors

A linear factor is the term `½ ‖Σ A_j x_j - b‖²` of a least squares problem, with one block `A_j`
for each of its keys. That the blocks have as many rows as `b` and the keys are distinct is part of
the type.
-/

namespace Smoothing

structure GaussianFactor (α : Type) where
  terms : List (Key × Mat α)
  rhs : Vec α
  height_eq : ∀ t ∈ terms, t.2.height = rhs.size
  nodup : (terms.map (·.1)).Nodup

namespace GaussianFactor

variable {α : Type}

def keys (f : GaussianFactor α) : List Key := f.terms.map (·.1)

def blocks (f : GaussianFactor α) : List (Mat α) := f.terms.map (·.2)

def height (f : GaussianFactor α) : Nat := f.rhs.size

def isUnary (f : GaussianFactor α) : Bool := f.terms.length == 1

def blockFor? (f : GaussianFactor α) (k : Key) : Option (Mat α) := KeyMap.find? k f.terms

def mentions (f : GaussianFactor α) (k : Key) : Bool := f.keys.contains k

/-- The factor with the given keys, blocks and right-hand side, if they go together. -/
def ofBlocks? (keys : List Key) (blocks : List (Mat α)) (rhs : Vec α) :
    Except (LinearError α) (GaussianFactor α) :=
  if keys.length ≠ blocks.length then .error (.sizes (.keyCount keys.length blocks.length))
  else
    let terms := List.zip keys blocks
    match h : terms.find? fun t => t.2.height ≠ rhs.size with
    | some (key, block) => .error (.sizes (.blockRows key block.height rhs.size))
    | none =>
      if hn : (terms.map (·.1)).Nodup then
        .ok ⟨terms, rhs, by simpa using List.find?_eq_none.1 h, hn⟩
      else .error (.sizes .repeatedKey)

instance [BEq α] : BEq (GaussianFactor α) := ⟨fun f g => f.terms == g.terms && f.rhs == g.rhs⟩

def fits (f : GaussianFactor α) (x : BlockVector α) : Bool :=
  f.terms.all fun t => match x.get? t.1 with
    | some v => v.size == t.2.cols
    | none => true

/-- Whether a vector can be multiplied by the transposed blocks and added to a block vector. -/
def fitsTransposed (f : GaussianFactor α) (e : Vec α) (out : BlockVector α) : Bool :=
  f.terms.all fun t => t.2.height == e.size && match out.get? t.1 with
    | some v => v.size == t.2.cols
    | none => true

variable [Scalar α]

/-- The damping term `√λ · x_k = 0` of a variable. -/
def damping (k : Key) (dim : Nat) (lambda : α) : GaussianFactor α where
  terms := [(k, (Mat.identity dim).scale (Scalar.sqrt lambda))]
  rhs := Vec.zero dim
  height_eq := by simp [Mat.height, Mat.scale, Mat.map, Mat.identity, Mat.ofFn]
  nodup := by simp

def addMulVec (y : Vec α) (m : Mat α) (v : Vec α) : Vec α :=
  ⟨List.zipWith (fun y (r : Vec α) =>
    (List.zip r.coords v.coords).foldl (fun acc av => acc + av.1 * av.2) y) y.coords m.rows⟩

/-- The vector `Σ A_j x_j`, where a missing block counts as zero. -/
def multiply (f : GaussianFactor α) (x : BlockVector α) : Vec α :=
  f.terms.foldl (fun acc t => match x.get? t.1 with
    | some v => addMulVec acc t.2 v
    | none => acc) (Vec.zero f.height)

/-- Adds `c · A_jᵀ e` to the block of every key of the factor. -/
def transposeMultiplyAdd (f : GaussianFactor α) (c : α) (e : Vec α) (out : BlockVector α) :
    BlockVector α :=
  f.terms.foldl (fun acc t => BlockVector.addBlock c acc t.1 (t.2.transposeMulVec e)) out

def residual (f : GaussianFactor α) (x : BlockVector α) : Vec α := f.multiply x - f.rhs

def error (f : GaussianFactor α) (x : BlockVector α) : α := 0.5 * (f.residual x).normSq

def residual? (f : GaussianFactor α) (x : BlockVector α) : Option (Vec α) :=
  if f.fits x then some (f.residual x) else none

def transposeMultiplyAdd? (f : GaussianFactor α) (c : α) (e : Vec α) (out : BlockVector α) :
    Option (BlockVector α) :=
  if f.fitsTransposed e out then some (f.transposeMultiplyAdd c e out) else none

end GaussianFactor

structure GaussianGraph (α : Type) where
  factors : List (GaussianFactor α)

namespace GaussianGraph

variable {α : Type}

instance [BEq α] : BEq (GaussianGraph α) := ⟨fun g h => g.factors == h.factors⟩

def size (g : GaussianGraph α) : Nat := g.factors.length

def isEmpty (g : GaussianGraph α) : Bool := g.factors.isEmpty

def keys (g : GaussianGraph α) : KeySet := KeyMap.setOf (g.factors.flatMap GaussianFactor.keys)

def height (g : GaussianGraph α) : Nat := g.factors.foldr (fun f n => f.height + n) 0

def push (g : GaussianGraph α) (f : GaussianFactor α) : GaussianGraph α := ⟨g.factors ++ [f]⟩

def fits (g : GaussianGraph α) (x : BlockVector α) : Bool := g.factors.all (·.fits x)

variable [Scalar α]

def error (g : GaussianGraph α) (x : BlockVector α) : α :=
  Scalar.sum (g.factors.map (·.error x))

def multiply (g : GaussianGraph α) (x : BlockVector α) : List (Vec α) :=
  g.factors.map (·.multiply x)

def transposeMultiply (g : GaussianGraph α) (es : List (Vec α)) : BlockVector α :=
  (List.zip g.factors es).foldl (fun acc fe => fe.1.transposeMultiplyAdd 1 fe.2 acc) KeyMap.empty

/-- Whether the vectors can be multiplied by the transposed factors, one after the other. -/
def fitsTransposed (g : GaussianGraph α) (es : List (Vec α)) : Bool :=
  go KeyMap.empty (List.zip g.factors es)
where
  go (acc : BlockVector α) : List (GaussianFactor α × Vec α) → Bool
    | [] => true
    | (f, e) :: rest => f.fitsTransposed e acc && go (f.transposeMultiplyAdd 1 e acc) rest

def error? (g : GaussianGraph α) (x : BlockVector α) : Option α :=
  if g.fits x then some (g.error x) else none

def multiply? (g : GaussianGraph α) (x : BlockVector α) : Option (List (Vec α)) :=
  if g.fits x then some (g.multiply x) else none

def transposeMultiply? (g : GaussianGraph α) (es : List (Vec α)) : Option (BlockVector α) :=
  if g.fitsTransposed es then some (g.transposeMultiply es) else none

end GaussianGraph

end Smoothing
