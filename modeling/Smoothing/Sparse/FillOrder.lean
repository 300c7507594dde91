/-!
# Orders with little fill

When an unknown of a sparse symmetric system is eliminated, the unknowns it was linked to become
linked with each other. To keep these new links few, an unknown with the fewest links is eliminated
first.

Links are not stored one by one. An eliminated unknown becomes an *element*, which lists the
unknowns it links, its *members*; an element takes in the elements it covers. The number of links is
only bounded, by adding up the elements an unknown is in. Unknowns with the same links are *twins*
and go on as one node, whose weight counts them. An unknown with very many links waits until the
end.

An element whose members were all taken over by a later one belongs to it. The elements are listed
so that each comes right after those that belong to it. The result is an order of the unknowns in
any case: what is found is used only if it lists each of them once.
-/

namespace Smoothing.FillOrder

/-- An unknown, or the element it became. -/
structure Node where
  /-- The number of unknowns it stands for; none if it belongs to another node, or waits until the
  end. -/
  weight : Nat
  /-- A bound of the weight of the unknowns it is linked to; for an element the weight of its
  members. -/
  degree : Nat
  extent : Nat
  owner? : Option Nat
  elements : List Nat
  neighbours : List Nat
  members : List Nat
deriving Inhabited, Repr

structure State where
  nodes : Array Node
  waiting : Array (List Nat)
  settled : Nat
deriving Repr

namespace State

def node (s : State) (i : Nat) : Node := s.nodes.getD i default

def update (s : State) (i : Nat) (f : Node → Node) : State := { s with nodes := s.nodes.modify i f }

/-- Lets an unknown wait, before those of its degree that wait already. -/
def enqueue (s : State) (i : Nat) : State :=
  { s with waiting := s.waiting.modify (s.node i).degree (i :: ·) }

def dequeue (s : State) (i : Nat) : State :=
  { s with waiting := s.waiting.modify (s.node i).degree (·.erase i) }

/-- The first of the waiting unknowns with the least degree. -/
def lightest? (s : State) : Option Nat := s.waiting.findSome? List.head?

def weightOf (s : State) (is : List Nat) : Nat := is.foldl (fun w i => w + (s.node i).weight) 0

def assign (owner : Nat) (s : State) (i : Nat) : State :=
  s.update i fun x => { x with owner? := some owner, weight := 0 }

def adopt (owner : Nat) (s : State) (e : Nat) : State :=
  s.update e fun x => { x with owner? := some owner }

end State

/-! ### Start -/

/-- Whether an unknown has so many links that it waits until the end. -/
def isDense (n degree : Nat) : Bool := decide (16 < degree) && decide (100 * n < degree * degree)

def Node.ofNeighbours (n : Nat) (neighbours : List Nat) : Node where
  weight := if isDense n neighbours.length then 0 else 1
  degree := neighbours.length
  extent := 1
  owner? := none
  elements := []
  neighbours := neighbours
  members := []

/-- The state before any elimination. An unknown without links is settled, and so is one that waits
until the end. -/
def State.start (n : Nat) (neighbours : Nat → List Nat) : State :=
  (List.range n).foldl place
    ⟨((List.range n).map fun i => Node.ofNeighbours n (neighbours i)).toArray,
      Array.replicate (n + 1) [], 0⟩
where
  place (s : State) (i : Nat) : State :=
    let x := s.node i
    if x.degree = 0 || x.weight = 0 then { s with settled := s.settled + 1 } else s.enqueue i

/-! ### Elimination of one unknown -/

/-- The unknowns that a pivot links: the other members of its elements, and its neighbours. -/
def State.front (s : State) (p : Nat) : List Nat :=
  let x := s.node p
  let near := x.elements.flatMap (fun e => (s.node e).members) ++ x.neighbours
  (near.filter fun i => i ≠ p && (s.node i).weight ≠ 0).eraseDups

/-- The elements that have members in a front and belong to no other, with the weight of their
members outside of it. -/
def State.outsideWeights (s : State) (front : List Nat) : List (Nat × Nat) :=
  let elements := (front.flatMap fun i => (s.node i).elements).eraseDups
  (elements.filter fun e => (s.node e).owner?.isNone).map fun e =>
    (e, (s.node e).degree - s.weightOf (front.filter fun i => (s.node i).elements.contains e))

/-- The links of an unknown of a front to unknowns outside of it. -/
structure Links where
  node : Nat
  elements : List Nat
  neighbours : List Nat
  degree : Nat
deriving Repr

def State.linksOf (s : State) (p : Nat) (front : List Nat) (outside : List (Nat × Nat)) (i : Nat) :
    Links :=
  let x := s.node i
  let elements := x.elements.filterMap fun e => outside.find? fun o => o.1 == e && o.2 != 0
  let neighbours := x.neighbours.filter fun j => j ≠ p && !front.contains j && (s.node j).weight ≠ 0
  ⟨i, elements.map Prod.fst, neighbours,
    elements.foldl (fun d o => d + o.2) 0 + s.weightOf neighbours⟩

def rotate : List Nat → List Nat
  | [] => []
  | x :: xs => xs ++ [x]

def State.relink (p : Nat) (s : State) (l : Links) : State :=
  s.update l.node fun x => { x with
    degree := min x.degree l.degree
    elements := p :: rotate l.elements
    neighbours := rotate l.neighbours }

/-- Joins twins: of the nodes with the same links the first one stands for all. -/
def State.joinTwins (s : State) : List (Nat × (List Nat × List Nat)) → State
  | [] => s
  | (i, links) :: rest =>
    let twins := if (s.node i).weight = 0 then []
      else (rest.filter fun t => t.2 == links && (s.node t.1).weight ≠ 0).map Prod.fst
    let weight := s.weightOf twins
    joinTwins
      ((twins.foldl (assign i) s).update i fun x => { x with weight := x.weight + weight }) rest

def State.linkSets (s : State) (i : Nat) : Nat × (List Nat × List Nat) :=
  (i, ((s.node i).elements.mergeSort, (s.node i).neighbours.mergeSort))

/-- Lets a member of a new element wait again, with the links through the element counted. -/
def State.requeue (n degree : Nat) (s : State) (i : Nat) : State :=
  let w := (s.node i).weight
  (s.update i fun x => { x with degree := min (x.degree + degree - w) (n - s.settled - w) }).enqueue
    i

/-- Eliminates an unknown: it becomes an element with its front as members. Unknowns of the front
without other links are settled along with it. -/
def State.eliminate (n : Nat) (s : State) (p : Nat) : State :=
  let front := s.front p
  let weight := (s.node p).weight
  let degree := s.weightOf front
  let s := front.foldl dequeue (s.dequeue p)
  let s := (s.node p).elements.foldl (adopt p) s
  let outside := s.outsideWeights front
  let (inner, outer) := (front.map (s.linksOf p front outside)).partition (·.degree = 0)
  let settled := s.weightOf (inner.map Links.node)
  let s := ((outside.filter (·.2 = 0)).map Prod.fst).foldl (adopt p) s
  let s := (inner.map Links.node).foldl (assign p) s
  let s := outer.foldl (relink p) { s with settled := s.settled + weight + settled }
  let s := s.joinTwins ((outer.map Links.node).reverse.map s.linkSets)
  let members := (outer.map Links.node).filter fun i => (s.node i).weight ≠ 0
  let s := members.foldl (requeue n (degree - settled)) s
  s.update p fun x => { x with
    weight := weight + settled
    degree := degree - settled
    extent := weight + degree
    members := members }

def State.run (n : Nat) : Nat → State → State
  | 0, s => s
  | steps + 1, s =>
    match s.lightest? with
    | none => s
    | some p => run n steps (s.eliminate n p)

/-! ### The order -/

/-- The element a node became a part of; there is none for an unknown that waits until the end. -/
def State.element? (s : State) : Nat → Nat → Option Nat
  | 0, _ => none
  | steps + 1, i =>
    let x := s.node i
    if x.weight ≠ 0 then some i
    else match x.owner? with
      | some j => element? s steps j
      | none => none

def groups (n : Nat) (f : Nat → Option Nat) : Array (List Nat) :=
  (List.range n).foldr (fun i lists =>
    match f i with
    | some e => lists.modify e (i :: ·)
    | none => lists) (Array.replicate n [])

def State.largest? (s : State) (es : List Nat) : Option Nat :=
  es.foldl (fun best e =>
    match best with
    | some b => if (s.node b).extent ≤ (s.node e).extent then some e else some b
    | none => some e) none

def State.largestLast (s : State) (es : List Nat) : List Nat :=
  match s.largest? es with
  | some e => es.erase e ++ [e]
  | none => es

/-- An element after all that belong to it, down to a depth. -/
def State.withOwned (s : State) (owned : Array (List Nat)) : Nat → Nat → List Nat
  | 0, _ => []
  | depth + 1, e => (s.largestLast (owned.getD e [])).flatMap (withOwned s owned depth) ++ [e]

def State.unknowns (n : Nat) (s : State) : List Nat :=
  let isElement (i : Nat) : Bool := (s.node i).weight ≠ 0
  let owned := groups n fun e => if isElement e then (s.node e).owner? else none
  let parts := groups n fun i => if isElement i then none else s.element? n i
  let roots := (List.range n).filter fun e => isElement e && (s.node e).owner?.isNone
  let dense := (List.range n).filter fun i => !isElement i && (s.node i).owner?.isNone
  (roots.flatMap (s.withOwned owned n)).flatMap (fun e => parts.getD e [] ++ [e]) ++ dense

/-- An order of the numbers below `n`, where `neighbours` gives the links. -/
def ofNeighbours (n : Nat) (neighbours : Nat → List Nat) : List Nat :=
  let order := ((State.start n neighbours).run n n).unknowns n
  if order.mergeSort == List.range n then order else List.range n

theorem perm_ofNeighbours (n : Nat) (neighbours : Nat → List Nat) :
    (ofNeighbours n neighbours).Perm (List.range n) := by
  simp only [ofNeighbours]
  split
  · next h => exact (List.mergeSort_perm _ _).symm.trans (by rw [eq_of_beq h])
  · exact .rfl

end Smoothing.FillOrder
