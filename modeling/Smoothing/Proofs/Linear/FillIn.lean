import Mathlib
import Smoothing.Proofs.EliminationOrder.FillPath
import Smoothing.Proofs.FactorGraph.Linearization
import Smoothing.Proofs.Linear.Elimination

/-!
# The fill-in of the greedy order

The greedy order keeps neighbours where elimination keeps factors. A step of either joins what was
joined to its variable: `EliminationOrder.joins_remove` for the neighbours,
`Elimination.sharedBy_next` for the factors of the pool. So two variables that share a factor of the
pool are neighbours, and the parents of a conditional are among the neighbours that the greedy order
has removed with its variable (`Elimination.parents_of_eliminateAll`). They are all of them if every
step with a separator leaves a factor on it (`Elimination.leavesRemainders`).

Main statement: `EliminationOrder.minDegree_fill`, the neighbours that are removed are the ends of
fill paths and the parents that elimination creates.
-/

namespace Smoothing

variable {α : Type} [Scalar α]

namespace Elimination

open EliminationOrder Adjacency

/-! ### The graph of a pool -/

/-- Two variables share a factor. -/
def SharedBy (pool : List (GaussianFactor α)) (k j : Key) : Prop :=
  k ≠ j ∧ ∃ f ∈ pool, k ∈ f.keys ∧ j ∈ f.keys

section Step
variable {dims : KeyMap ℕ} {o : EliminationOrder} {k : Key} {dim : ℕ}
  {pool : List (GaussianFactor α)} {c : Conditional α} {remainder : Option (GaussianFactor α)}
  (hone : (eliminateOne k dim (pool.filter (·.mentions k)) dims o).outcome = .ok (c, remainder))
include hone

theorem mem_parentKeys_iff {j : Key} : j ∈ c.parentKeys ↔ SharedBy pool k j := by
  rw [(keys_of_eliminateOne hone).2.1, mem_separator, ne_comm]
  refine and_congr_right fun _ => ⟨fun ⟨f, hf, hj⟩ => ?_, fun ⟨f, hf, hk, hj⟩ => ?_⟩
  · obtain ⟨hf, hk⟩ := List.mem_filter.mp hf
    exact ⟨f, hf, mentions_iff.mp hk, hj⟩
  · exact ⟨f, List.mem_filter.mpr ⟨hf, mentions_iff.mpr hk⟩, hj⟩

theorem mem_keys_remainder_iff {f : GaussianFactor α} (hf : f ∈ remainder.toList) {j : Key} :
    j ∈ f.keys ↔ SharedBy pool k j := by
  obtain ⟨-, hparents, hremainder⟩ := keys_of_eliminateOne hone
  rw [← mem_parentKeys_iff hone, (hremainder f hf).1, hparents]

omit hone [Scalar α] in
theorem SharedBy.symm {n j : Key} (h : SharedBy pool n j) : SharedBy pool j n :=
  ⟨h.1.symm, h.2.imp fun _ ⟨hf, hn, hj⟩ => ⟨hf, hj, hn⟩⟩

/-- Variables that share a factor after a step did so before, or both with the variable of the
step. -/
theorem of_sharedBy_next {n j : Key}
    (h : SharedBy ((pool.filter fun f => !f.mentions k) ++ remainder.toList) n j) :
    n ≠ k ∧ j ≠ k ∧ (SharedBy pool n j ∨ n ≠ j ∧ SharedBy pool n k ∧ SharedBy pool k j) := by
  obtain ⟨hne, f, hf, hn, hj⟩ := h
  rcases List.mem_append.mp hf with hf | hf
  · obtain ⟨hf, hk⟩ := List.mem_filter.mp hf
    have hk : k ∉ f.keys := fun h => by simp [mentions_iff.mpr h] at hk
    exact ⟨fun h => hk (h ▸ hn), fun h => hk (h ▸ hj), .inl ⟨hne, f, hf, hn, hj⟩⟩
  · have hkn := (mem_keys_remainder_iff hone hf).mp hn
    have hkj := (mem_keys_remainder_iff hone hf).mp hj
    exact ⟨hkn.1.symm, hkj.1.symm, .inr ⟨hne, hkn.symm, hkj⟩⟩

/-- **A remainder makes up for the factors that are gone.** -/
theorem sharedBy_next (hremainder : ∀ j, SharedBy pool k j → remainder ≠ none) {n j : Key}
    (hn : n ≠ k) (hj : j ≠ k)
    (h : SharedBy pool n j ∨ n ≠ j ∧ SharedBy pool n k ∧ SharedBy pool k j) :
    SharedBy ((pool.filter fun f => !f.mentions k) ++ remainder.toList) n j := by
  have hjoined (hne : n ≠ j) (hkn : SharedBy pool k n) (hkj : SharedBy pool k j) :
      SharedBy ((pool.filter fun f => !f.mentions k) ++ remainder.toList) n j := by
    obtain ⟨f, rfl⟩ := Option.ne_none_iff_exists'.mp (hremainder j hkj)
    have hf : f ∈ (some f).toList := List.mem_singleton_self f
    exact ⟨hne, f, List.mem_append_right _ hf, (mem_keys_remainder_iff hone hf).mpr hkn,
      (mem_keys_remainder_iff hone hf).mpr hkj⟩
  rcases h with ⟨hne, f, hf, hnf, hjf⟩ | ⟨hne, hnk, hkj⟩
  · by_cases hk : k ∈ f.keys
    · exact hjoined hne ⟨hn.symm, f, hf, hk, hnf⟩ ⟨hj.symm, f, hf, hk, hjf⟩
    · have hmentions : (!f.mentions k) = true := by simpa using mt mentions_iff.mp hk
      exact ⟨hne, f, List.mem_append_left _ (List.mem_filter.mpr ⟨hf, hmentions⟩), hnf, hjf⟩
  · exact hjoined hne hnk.symm hkj

end Step

/-! ### The run -/

/-- Whether every step that has a separator leaves a remainder. -/
def leavesRemainders (dims : KeyMap ℕ) (o : EliminationOrder) :
    List Key → List (GaussianFactor α) → Bool
  | [], _ => true
  | k :: ks, pool =>
    match (dims.get? k).map fun dim =>
        (eliminateOne k dim (pool.filter (·.mentions k)) dims o).outcome with
    | some (.ok (c, remainder)) =>
      (c.parents.isEmpty || remainder.isSome) &&
        leavesRemainders dims o ks ((pool.filter fun f => !f.mentions k) ++ remainder.toList)
    | _ => true

section Run
variable {dims : KeyMap ℕ} {o : EliminationOrder}

theorem leavesRemainders_cons {k : Key} {ks : List Key} {dim : ℕ} {pool : List (GaussianFactor α)}
    {c : Conditional α} {remainder : Option (GaussianFactor α)} (hk : dims.get? k = some dim)
    (hone : (eliminateOne k dim (pool.filter (·.mentions k)) dims o).outcome = .ok (c, remainder))
    (h : leavesRemainders dims o (k :: ks) pool = true) :
    (∀ j, SharedBy pool k j → remainder ≠ none) ∧
      leavesRemainders dims o ks ((pool.filter fun f => !f.mentions k) ++ remainder.toList) =
      true := by
  rw [leavesRemainders, hk, Option.map_some, hone] at h
  obtain ⟨hseparator, hrest⟩ := (Bool.and_eq_true _ _).mp h
  refine ⟨?_, hrest⟩
  rintro j hkj rfl
  have hparents : c.parents = [] := by simpa using hseparator
  have hj := (mem_parentKeys_iff hone).mpr hkj
  rw [Conditional.parentKeys, hparents] at hj
  cases hj

/-- **Elimination in the greedy order** takes the variables of its steps, with parents that are
neighbours removed with them. They are all of these if the pool has all neighbours at first and
every separator keeps a factor. -/
theorem parents_of_eliminateAll {n : ℕ} {a : Adjacency} (ha : a.IsGraph)
    {pool : List (GaussianFactor α)} {r : List (Conditional α) × List (GaussianFactor α)}
    (hjoins : ∀ i j, SharedBy pool i j → a.Joins i j)
    (h : (eliminateAll dims o (greedy n a) pool).outcome = .ok r) :
    List.Forall₂ (fun c t => c.key = t.key ∧ ∀ j ∈ c.parentKeys, j ∈ t.neighbours.keys) r.1
      (greedyRun n a) ∧
      ((∀ i j, a.Joins i j → SharedBy pool i j) → leavesRemainders dims o (greedy n a) pool = true →
        List.Forall₂ (fun c t => ∀ j, j ∈ c.parentKeys ↔ j ∈ t.neighbours.keys) r.1
        (greedyRun n a)) := by
  induction n generalizing a pool r with
  | zero =>
    cases h
    exact ⟨.nil, fun _ _ => .nil⟩
  | succ n ih =>
    cases hf : fewest a.entries with
    | none =>
      rw [greedy_of_fewest_eq_none hf] at h
      cases h
      rw [greedyRun_of_fewest_eq_none hf]
      exact ⟨.nil, fun _ _ => .nil⟩
    | some e =>
      obtain ⟨k, s⟩ := e
      have hs := get?_of_fewest hf
      rw [greedy_succ hf] at h ⊢
      obtain ⟨dim, c, remainder, cs, hk, -, hone, hall, hr⟩ := eliminateAll_cons h
      -- the step keeps factors of the pool between neighbours
      have hnext : ∀ i j, SharedBy ((pool.filter fun f => !f.mentions k) ++ remainder.toList) i j →
          (remove a k s).Joins i j := fun i j hij => by
        obtain ⟨hi, hj, hij⟩ := of_sharedBy_next hone hij
        exact (joins_remove ha hs).mpr ⟨hi, hj, hij.imp (hjoins i j) fun ⟨hne, hik, hkj⟩ =>
          ⟨hne, hjoins i k hik, hjoins k j hkj⟩⟩
      have hparents : ∀ j, j ∈ c.parentKeys → j ∈ s.keys := fun j hj =>
        (joins_iff hs).mp (hjoins k j ((mem_parentKeys_iff hone).mp hj))
      obtain ⟨hsub, hsup⟩ := ih (isGraph_remove ha hs) hnext hall
      rw [hr, greedyRun_succ hf]
      refine ⟨.cons ⟨(keys_of_eliminateOne hone).1, hparents⟩ hsub,
        fun hshared hleaves => .cons (fun j => ?_) ?_⟩
      · exact ⟨hparents j, fun hj =>
          (mem_parentKeys_iff hone).mpr (hshared k j ((joins_iff hs).mpr hj))⟩
      · obtain ⟨hremainder, hrest⟩ := leavesRemainders_cons hk hone hleaves
        refine hsup (fun i j hij => ?_) hrest
        obtain ⟨hi, hj, hij⟩ := (joins_remove ha hs).mp hij
        exact sharedBy_next hone hremainder hi hj (hij.imp (hshared i j) fun ⟨hne, hik, hkj⟩ =>
          ⟨hne, hshared i k hik, hshared k j hkj⟩)

end Run

end Elimination

/-- Whether every step of an elimination that has a separator leaves a remainder. -/
def GaussianGraph.leavesRemainders (g : GaussianGraph α) (o : EliminationOrder) : Bool :=
  match g.dims.outcome with
  | .ok dims => Elimination.leavesRemainders dims o o.keys g.factors
  | .error _ => true

namespace EliminationOrder

open Elimination

omit [Scalar α] in
theorem sharedBy_iff_joins {g : FactorGraph α} {linear : GaussianGraph α}
    (hkeys : List.Forall₂ (fun f l => l.keys = f.keys) g.factors linear.factors) (k j : Key) :
    SharedBy linear.factors k j ↔ (adjacency g).Joins k j := by
  have hexists : (∃ f ∈ g.factors, k ∈ f.keys ∧ j ∈ f.keys) ↔ ∃ l ∈ linear.factors, k ∈ l.keys ∧
      j ∈ l.keys :=
    exists_mem_iff_of_forall₂ hkeys fun hl => by rw [hl]
  rw [(adjacency_spec g).2, SharedBy, hexists]

/-- **The fill-in of the greedy order is that of elimination.** The neighbours that are removed with
a variable are the later ones that the graph of the problem has a path to through earlier ones. When
linear factors on the same variables are eliminated in this order, the parents of each conditional
are among the neighbours removed with its variable, and they are all of them if every step that has
a separator leaves a remainder. -/
theorem minDegree_fill (g : FactorGraph α) :
    (minDegreeRun g).map GreedyStep.key = (minDegree g).keys ∧
      (∀ i t, (minDegreeRun g)[i]? = some t → ∀ j, j ∈ t.neighbours.keys ↔
        j ∈ (minDegree g).keys.drop (i + 1) ∧
        g.HasPathThrough ((minDegree g).keys.take i) t.key j) ∧
      ∀ linear : GaussianGraph α,
        List.Forall₂ (fun f l => l.keys = f.keys) g.factors linear.factors →
        ∀ net, (linear.eliminate (minDegree g)).outcome = .ok net →
          List.Forall₂ (fun c t => c.key = t.key ∧ ∀ j ∈ c.parentKeys, j ∈ t.neighbours.keys)
            net.conditionals (minDegreeRun g) ∧
          (linear.leavesRemainders (minDegree g) = true →
            List.Forall₂ (fun c t => ∀ j, j ∈ c.parentKeys ↔ j ∈ t.neighbours.keys)
              net.conditionals (minDegreeRun g)) := by
  refine ⟨map_key_greedyRun _ _, fun i t ht j => mem_neighbours_iff ht,
    fun linear hkeys net hnet => ?_⟩
  obtain ⟨dims, hdims, hall⟩ := GaussianGraph.eliminate_eq_ok_iff.mp hnet
  have hshared := sharedBy_iff_joins hkeys
  obtain ⟨hsub, heq⟩ :=
    parents_of_eliminateAll (isGraph_adjacency g) (fun i j => (hshared i j).mp) hall
  refine ⟨hsub, fun hleaves => heq (fun i j => (hshared i j).mpr) ?_⟩
  rwa [GaussianGraph.leavesRemainders, hdims] at hleaves

end EliminationOrder

/-! ### The square, eliminated

Every measurement of the square is one equation. The first step leaves a factor on the second and
the fourth variable, which no measurement links. -/

namespace Square

open EliminationOrder

def config : Config Float :=
  KeyMap.ofList [(corner 1, .rn ⟨[0.0]⟩), (corner 2, .rn ⟨[0.0]⟩), (corner 3, .rn ⟨[0.0]⟩),
  (corner 4, .rn ⟨[0.0]⟩)]

/-- Whether the square is eliminated with a remainder on every separator. -/
def isFilled : Bool :=
  match (graph.linearize config).outcome with
  | .ok linear =>
    (linear.eliminate (minDegree graph)).outcome.isOk && linear.leavesRemainders (minDegree graph)
  | .error _ => false

theorem minDegree_fill_square :
    graph.HasPathThrough [corner 1] (corner 2) (corner 4) ∧
      ∃ linear net, (graph.linearize config).outcome = .ok linear ∧
        (linear.eliminate (minDegree graph)).outcome = .ok net ∧
        List.Forall₂ (fun c t => ∀ j, j ∈ c.parentKeys ↔ j ∈ t.neighbours.keys) net.conditionals
          (minDegreeRun graph) := by
  have hfilled : isFilled = true := by decide +kernel
  obtain ⟨-, hpaths, hparents⟩ := minDegree_fill graph
  obtain ⟨t, ht, hkey, hmem⟩ : ∃ t, (minDegreeRun graph)[1]? = some t ∧ t.key = corner 2 ∧
      corner 4 ∈ t.neighbours.keys := ⟨_, rfl, by decide, by decide⟩
  obtain ⟨-, hpath⟩ := (hpaths 1 t ht (corner 4)).mp hmem
  refine ⟨hkey ▸ hpath, ?_⟩
  unfold isFilled at hfilled
  split at hfilled
  · next linear hlinear =>
    obtain ⟨hok, hleaves⟩ := (Bool.and_eq_true _ _).mp hfilled
    obtain ⟨net, hnet⟩ := Logged.exists_of_isOk hok
    exact ⟨linear, net, hlinear, hnet,
      (hparents linear (FactorGraph.keys_of_linearize hlinear) net hnet).2 hleaves⟩
  · cases hfilled

end Square

end Smoothing
