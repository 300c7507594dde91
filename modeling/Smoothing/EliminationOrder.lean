import Smoothing.FactorGraph

/-!
# Elimination orders

The sequence in which variables are eliminated, or laid out in columns. An order mentions no key
twice; that is part of the type. Besides the natural order there is a greedy one, which always takes
a variable with the fewest neighbours. Main statement: `nodup_greedy`, the greedy order repeats no
key.
-/

namespace Smoothing

structure EliminationOrder where
  keys : List Key
  nodup : keys.Nodup

namespace EliminationOrder

def size (o : EliminationOrder) : Nat := o.keys.length

def isEmpty (o : EliminationOrder) : Bool := o.keys.isEmpty

def contains (o : EliminationOrder) (k : Key) : Bool := o.keys.contains k

def position? (o : EliminationOrder) (k : Key) : Option Nat := o.keys.idxOf? k

def repeated? (seen : KeySet) : List Key → Option Key
  | [] => none
  | k :: ks => if seen.contains k then some k else repeated? (seen.add k) ks

theorem not_mem_of_repeated?_eq_none {ks : List Key} {seen : KeySet}
    (h : repeated? seen ks = none) : ∀ k ∈ ks, seen.contains k = false := by
  induction ks generalizing seen with
  | nil => simp
  | cons k ks ih =>
    rw [repeated?] at h
    split at h
    · simp at h
    · next hk =>
      intro j hj
      rcases List.mem_cons.1 hj with rfl | hj
      · simpa using hk
      · have := ih h j hj
        simp only [KeyMap.contains, KeyMap.add, KeyMap.get?_insert] at this ⊢
        split at this <;> simp_all

theorem nodup_of_repeated?_eq_none {ks : List Key} {seen : KeySet}
    (h : repeated? seen ks = none) : ks.Nodup := by
  induction ks generalizing seen with
  | nil => simp
  | cons k ks ih =>
    rw [repeated?] at h
    split at h
    · simp at h
    · refine List.nodup_cons.2 ⟨fun hk => ?_, ih h⟩
      have := not_mem_of_repeated?_eq_none h k hk
      simp [KeyMap.contains, KeyMap.add] at this

def text (o : EliminationOrder) : String := "Ordering [" ++ Key.listText o.keys ++ "]"

variable {α : Type}

def ofKeys (keys : List Key) : FactorGraph.Run α EliminationOrder :=
  match h : repeated? KeyMap.empty keys with
  | some k => Logged.failWith .problem (.ordering (.repeated k))
  | none => pure ⟨keys, nodup_of_repeated?_eq_none h⟩

/-- Refuses an order that is not made of exactly the given keys. -/
def validate (o : EliminationOrder) (keys : KeySet) : FactorGraph.Run α Unit :=
  match keys.keys.find? fun k => !o.contains k with
  | some k => Logged.failWith .problem (.ordering (.missing k))
  | none => match o.keys.find? fun k => !keys.contains k with
    | some k => Logged.failWith .problem (.ordering (.extra k))
    | none => pure ()

def natural (g : FactorGraph α) : EliminationOrder where
  keys := g.keys.keys
  nodup := g.keys.sorted_keys.imp Key.ne_of_lt

/-! ### The greedy order -/

/-- The neighbours of every variable that is left. -/
abbrev Adjacency := KeyMap KeySet

def addAll (s : KeySet) (ks : List Key) : KeySet := ks.foldl KeyMap.add s

def connectAll (a : Adjacency) (ks : List Key) : Adjacency :=
  ks.foldl (fun a k => a.insert k (addAll ((a.get? k).getD KeyMap.empty) (ks.filter (· ≠ k)))) a

/-- Variables are neighbours if a factor mentions both. -/
def adjacency (g : FactorGraph α) : Adjacency :=
  g.factors.foldl (fun a f => connectAll a f.keys) KeyMap.empty

def fewest : List (Key × KeySet) → Option (Key × KeySet)
  | [] => none
  | e :: es =>
    match fewest es with
    | none => some e
    | some e' => if e'.2.size < e.2.size then some e' else some e

/-- Eliminates a variable: its neighbours become neighbours of each other. -/
def remove (a : Adjacency) (k : Key) (neighbours : KeySet) : Adjacency :=
  (a.erase k).map fun n s =>
    if neighbours.contains n then addAll (s.erase k) (neighbours.keys.filter (· ≠ n)) else s

/-- Eliminates variables as long as there are some, at most `n` of them. -/
def greedy : Nat → Adjacency → List Key
  | 0, _ => []
  | n + 1, a =>
    match fewest a.entries with
    | none => []
    | some (k, neighbours) => k :: greedy n (remove a k neighbours)

theorem mem_of_fewest {es : List (Key × KeySet)} {e : Key × KeySet} (h : fewest es = some e) :
    e ∈ es := by
  induction es generalizing e with
  | nil => simp [fewest] at h
  | cons f es ih =>
    rw [fewest] at h
    split at h
    · simp_all
    · next e' he' =>
      split at h
      · simp only [Option.some.injEq] at h
        exact h ▸ List.mem_cons_of_mem _ (ih he')
      · simp_all

theorem keys_remove (a : Adjacency) (k : Key) (s : KeySet) :
    (remove a k s).keys = a.keys.filter (· ≠ k) := by
  rw [remove, KeyMap.keys_map]
  simp [KeyMap.keys, KeyMap.erase, List.filter_map, Function.comp_def]

theorem mem_of_mem_greedy {n : Nat} {a : Adjacency} {k : Key} (h : k ∈ greedy n a) :
    k ∈ a.keys := by
  induction n generalizing a with
  | zero => simp [greedy] at h
  | succ n ih =>
    rw [greedy] at h
    split at h
    · simp at h
    · next k' s he =>
      rcases List.mem_cons.1 h with rfl | h
      · exact List.mem_map.2 ⟨_, mem_of_fewest he, rfl⟩
      · have := ih h
        rw [keys_remove] at this
        exact (List.mem_filter.1 this).1

theorem nodup_greedy (n : Nat) (a : Adjacency) : (greedy n a).Nodup := by
  induction n generalizing a with
  | zero => simp [greedy]
  | succ n ih =>
    rw [greedy]
    split
    · simp
    · next k s he =>
      refine List.nodup_cons.2 ⟨fun h => ?_, ih _⟩
      have := mem_of_mem_greedy h
      rw [keys_remove] at this
      simp at this

/-- The greedy order: the variable with the fewest neighbours first, of several the one with the
least key. -/
def minDegree (g : FactorGraph α) : EliminationOrder where
  keys := greedy (adjacency g).size (adjacency g)
  nodup := nodup_greedy _ _

end EliminationOrder

end Smoothing
