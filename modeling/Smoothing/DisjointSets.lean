import Smoothing.KeyMap

/-!
# Disjoint sets

A partition of keys into sets. Every key has a number; every number points to a parent, and a number
that points to itself is the root of its set. Walking to a root halves the path behind it, and of
two sets the one of smaller rank is put below the other.
-/

namespace Smoothing

structure DisjointSets where
  index : KeyMap Nat
  parent : Array Nat
  /-- The rank of every number, which bounds the height of the paths below a root. -/
  rank : Array Nat

namespace DisjointSets

def empty : DisjointSets := ⟨KeyMap.empty, #[], #[]⟩

def parentOf (parent : Array Nat) (i : Nat) : Nat := parent.getD i i

/-- Walks to the root of a number in at most `fuel` steps; every number on the way is made to point
past its parent. -/
def walk : Nat → Array Nat → Nat → Array Nat × Nat
  | 0, parent, i => (parent, i)
  | fuel + 1, parent, i =>
    let p := parentOf parent i
    if p = i then (parent, i)
    else
      let g := parentOf parent p
      walk fuel (parent.setIfInBounds i g) g

def root (s : DisjointSets) (i : Nat) : DisjointSets × Nat :=
  let (parent, r) := walk s.parent.size s.parent i
  ({ s with parent := parent }, r)

/-- The root of a key. A key that was not seen before starts a set of its own. -/
def find (s : DisjointSets) (k : Key) : DisjointSets × Nat :=
  match s.index.get? k with
  | some i => s.root i
  | none =>
    let i := s.parent.size
    root ⟨s.index.insert k i, s.parent.push i, s.rank.push 0⟩ i

def union (s : DisjointSets) (a b : Nat) : DisjointSets :=
  let (s, a) := s.root a
  let (s, b) := s.root b
  if a = b then s
  else
    let ra := s.rank.getD a 0
    let rb := s.rank.getD b 0
    if ra < rb then { s with parent := s.parent.setIfInBounds a b }
    else if rb < ra then { s with parent := s.parent.setIfInBounds b a }
    else { s with
      parent := s.parent.setIfInBounds b a
      rank := s.rank.setIfInBounds a (ra + 1) }

def findAll (s : DisjointSets) : List Key → DisjointSets × List Nat
  | [] => (s, [])
  | k :: ks =>
    let (s, r) := s.find k
    let (s, rs) := s.findAll ks
    (s, r :: rs)

/-- Joins the sets of neighbours in a list of numbers. -/
def unionAll (s : DisjointSets) : List Nat → DisjointSets
  | a :: b :: rest => (s.union a b).unionAll (b :: rest)
  | _ => s

end DisjointSets

end Smoothing
