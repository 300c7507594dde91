import Mathlib
import Smoothing.Linear.Subgraph
import Smoothing.Proofs.DisjointSets
import Smoothing.Proofs.FactorGraph
import Smoothing.Proofs.Linear.Subgraph.Links
import Smoothing.Scalar.Binary64

/-!
# The subgraph is a spanning forest

The factors that are not on one variable are taken in the order of their errors and, for equal
errors, of their places. A factor is taken if its variables are in different sets of the factors
taken before it.

* The candidates are the factors that are not on one variable, sorted in a total order
(`sortCandidates_eq`, `Before`).
* The sets are those of the keys that the factors taken so far link, so a factor is taken exactly if
those before it link no two of its keys (`mem_forest_iff`).

So the choice is greedy (`isGreedy_selected`), and what holds of greedy choices holds of the
subgraph.

Main statement: **`build_spanningForest`**.
-/

namespace Smoothing

/-- The errors of factors are compared by a total order. -/
class Scalar.LawfulTotalLE (α : Type) [Scalar α] : Prop where
  total : ∀ a b : α, Scalar.totalLE a b = true ∨ Scalar.totalLE b a = true
  trans : ∀ a b c : α, Scalar.totalLE a b = true → Scalar.totalLE b c = true →
    Scalar.totalLE a c = true

theorem Binary64.totalLE_iff {a b : Float} :
    Scalar.totalLE a b = true ↔ Binary64.totalKey a ≤ Binary64.totalKey b :=
  decide_eq_true_iff

instance : Scalar.LawfulTotalLE Float where
  total _ _ := by
    simp only [Binary64.totalLE_iff]
    exact Int.le_total _ _
  trans _ _ _ := by
    simp only [Binary64.totalLE_iff]
    exact Int.le_trans

namespace SubgraphSolver

/-! ### The order of the candidates -/

section Order
variable {α : Type} [Scalar α]

/-- Whether a candidate comes before another: by error, then by index. -/
def Before (a b : α × ℕ) : Prop :=
  Scalar.totalLE a.1 b.1 = true ∧ (Scalar.totalLE b.1 a.1 = true → a.2 < b.2)

theorem candidateLE_iff {a b : α × ℕ} : candidateLE a b = true ↔
    Scalar.totalLE a.1 b.1 = true ∧ (Scalar.totalLE b.1 a.1 = true → a.2 ≤ b.2) := by
  unfold candidateLE
  cases Scalar.totalLE a.1 b.1 <;> cases Scalar.totalLE b.1 a.1 <;> simp

theorem before_iff {a b : α × ℕ} (hab : a.2 ≠ b.2) : Before a b ↔ candidateLE a b = true := by
  rw [candidateLE_iff, Before]
  exact and_congr_right' (imp_congr_right fun _ => ⟨le_of_lt, fun h => lt_of_le_of_ne h hab⟩)

theorem not_before_of_candidateLE {a b : α × ℕ} (h : candidateLE a b = true) : ¬ Before b a := by
  rintro ⟨hba, hlt⟩
  obtain ⟨hab, hle⟩ := candidateLE_iff.mp h
  exact absurd (hlt hab) (not_lt.mpr (hle hba))

theorem sortCandidates_eq (as : List (α × ℕ)) :
    sortCandidates as = as.insertionSort fun a b => candidateLE a b = true := by
  have hinsert : ∀ a (bs : List (α × ℕ)),
      insertCandidate a bs = bs.orderedInsert (fun a b => candidateLE a b = true) a := by
    intro a bs
    induction bs with
    | nil => rfl
    | cons b bs ih => rw [insertCandidate, List.orderedInsert_cons, ih]
  induction as with
  | nil => rfl
  | cons a as ih =>
    rw [sortCandidates, List.foldr_cons, List.insertionSort_cons, ← ih, hinsert]; rfl

theorem perm_sortCandidates (as : List (α × ℕ)) : (sortCandidates as).Perm as := by
  rw [sortCandidates_eq]
  exact List.perm_insertionSort _ as

theorem mem_pre_iff_before {pre post : List (α × ℕ)} {a b : α × ℕ}
    (hsorted : (pre ++ b :: post).Pairwise fun a b => candidateLE a b = true)
    (hnd : ((pre ++ b :: post).map (·.2)).Nodup) (ha : a ∈ pre ++ b :: post) :
    a ∈ pre ↔ Before a b := by
  obtain ⟨-, hpost, hpre⟩ := List.pairwise_append.mp hsorted
  rw [List.map_append, List.map_cons] at hnd
  obtain ⟨-, -, hdisjoint⟩ := List.nodup_append.mp hnd
  constructor
  · intro hmem
    have hne : a.2 ≠ b.2 := hdisjoint a.2 (List.mem_map_of_mem hmem) b.2 List.mem_cons_self
    exact (before_iff hne).mpr (hpre a hmem b List.mem_cons_self)
  · intro hab
    refine (List.mem_append.mp ha).resolve_right fun hmem => ?_
    rcases List.mem_cons.mp hmem with rfl | hmem
    · exact absurd (hab.2 hab.1) (lt_irrefl _)
    · exact not_before_of_candidateLE ((List.pairwise_cons.mp hpost).1 a hmem) hab

variable [Scalar.LawfulTotalLE α]

theorem before_trans {a b c : α × ℕ} (hab : Before a b) (hbc : Before b c) : Before a c := by
  have trans := @Scalar.LawfulTotalLE.trans α
  refine ⟨trans _ _ _ hab.1 hbc.1, fun hca => ?_⟩
  exact (hab.2 (trans _ _ _ hbc.1 hca)).trans (hbc.2 (trans _ _ _ hca hab.1))

theorem before_total {a b : α × ℕ} (hab : a.2 ≠ b.2) : Before a b ∨ Before b a := by
  by_cases hle : Scalar.totalLE a.1 b.1 = true
  · by_cases hge : Scalar.totalLE b.1 a.1 = true
    · exact hab.lt_or_gt.imp (fun h => ⟨hle, fun _ => h⟩) fun h => ⟨hge, fun _ => h⟩
    · exact .inl ⟨hle, fun h => absurd h hge⟩
  · exact .inr ⟨(Scalar.LawfulTotalLE.total a.1 b.1).resolve_left hle, fun h => absurd h hle⟩

/-- **The candidates are sorted.** -/
theorem pairwise_sortCandidates (as : List (α × ℕ)) :
    (sortCandidates as).Pairwise fun a b => candidateLE a b = true := by
  have htotal : Std.Total fun a b : α × ℕ => candidateLE a b = true := ⟨fun a b => by
    rcases eq_or_ne a.2 b.2 with hab | hab
    · simp only [candidateLE_iff, hab, le_refl, implies_true, and_true]
      exact Scalar.LawfulTotalLE.total a.1 b.1
    · exact (before_total hab).imp (before_iff hab).mp (before_iff hab.symm).mp⟩
  have htrans : IsTrans (α × ℕ) fun a b => candidateLE a b = true := ⟨fun a b c hab hbc => by
    have trans := @Scalar.LawfulTotalLE.trans α
    rw [candidateLE_iff] at hab hbc ⊢
    refine ⟨trans _ _ _ hab.1 hbc.1, fun hca => ?_⟩
    exact (hab.2 (trans _ _ _ hbc.1 hca)).trans (hbc.2 (trans _ _ _ hca hab.1))⟩
  rw [sortCandidates_eq]
  exact List.pairwise_insertionSort _ as

end Order

/-! ### The choice -/

section Choice
open DisjointSets
variable {α : Type} {keysOf : ℕ → List Key}

theorem mem_of_mem_forest {s : DisjointSets} {as : List (α × ℕ)} :
    ∀ i ∈ forest keysOf s as, i ∈ as.map (·.2) := by
  induction as generalizing s with
  | nil => simp [forest]
  | cons a as ih =>
    intro i hi
    rw [forest] at hi
    dsimp only at hi
    split_ifs at hi
    · rcases List.mem_cons.mp hi with rfl | hi
      · exact List.mem_cons_self
      · exact List.mem_cons_of_mem _ (ih i hi)
    · exact List.mem_cons_of_mem _ (ih i hi)

/-- **One candidate** is taken exactly if its keys are not linked yet, and then its keys are linked
too. -/
theorem forest_cons {s : DisjointSets} (hs : Sound s) {T : Set ℕ}
    (hT : ∀ k l, Together s k l ↔ Linked keysOf T k l) (a : α × ℕ) (as : List (α × ℕ)) :
    ∃ s', Sound s' ∧
      (((keysOf a.2).Pairwise (fun k l => ¬ Linked keysOf T k l) ∧
        forest keysOf s (a :: as) = a.2 :: forest keysOf s' as ∧
          ∀ k l, Together s' k l ↔ Linked keysOf (insert a.2 T) k l) ∨
        (¬ (keysOf a.2).Pairwise (fun k l => ¬ Linked keysOf T k l) ∧
          forest keysOf s (a :: as) = forest keysOf s' as ∧
          ∀ k l, Together s' k l ↔ Linked keysOf T k l)) := by
  obtain ⟨hfound, hroots⟩ := hs.findAll_spec (keysOf a.2)
  have hT' : ∀ k l, Together (s.findAll (keysOf a.2)).1 k l ↔ Linked keysOf T k l := fun k l =>
    (hfound.together k l).trans (hT k l)
  have hnodup := nodup_iff_pairwise hroots
  simp only [hT'] at hnodup
  rw [forest]
  dsimp only
  by_cases hd : (s.findAll (keysOf a.2)).2.Nodup
  · obtain ⟨hsound, htogether⟩ := together_unionAll hfound.sound hroots
    rw [if_pos hd]
    exact ⟨_, hsound,
      .inl ⟨hnodup.mp hd, rfl, fun k l => by simp only [htogether, hT', linked_insert]⟩⟩
  · rw [if_neg hd]
    exact ⟨_, hfound.sound, .inr ⟨mt hnodup.mpr hd, rfl, hT'⟩⟩

/-- **A candidate is taken exactly if the candidates taken before it link no two of its keys.** The
partition has the sets of the keys that are linked by the factors `T`, which were taken before all
candidates. -/
theorem mem_forest_iff {s : DisjointSets} (hs : Sound s) {T : Set ℕ}
    (hT : ∀ k l, Together s k l ↔ Linked keysOf T k l) {pre post : List (α × ℕ)} {a : α × ℕ}
    (hnd : ((pre ++ a :: post).map (·.2)).Nodup) :
    a.2 ∈ forest keysOf s (pre ++ a :: post) ↔ (keysOf a.2).Pairwise fun k l =>
      ¬ Linked keysOf
          (T ∪ {j | j ∈ forest keysOf s (pre ++ a :: post) ∧ j ∈ pre.map (·.2)}) k l := by
  induction pre generalizing s T with
  | nil =>
    have hset : T ∪ {j | j ∈ forest keysOf s ([] ++ a :: post) ∧
        j ∈ ([] : List (α × ℕ)).map (·.2)} = T := by simp
    rw [hset, List.nil_append]
    obtain ⟨s', -, ⟨hpairwise, heq, -⟩ | ⟨hpairwise, heq, -⟩⟩ := forest_cons hs hT a post
    · exact iff_of_true (heq ▸ List.mem_cons_self) hpairwise
    · refine iff_of_false (fun hmem => ?_) hpairwise
      exact (List.nodup_cons.mp hnd).1 (mem_of_mem_forest _ (heq ▸ hmem))
  | cons b pre ih =>
    obtain ⟨hb, hnd⟩ := List.nodup_cons.mp hnd
    have hnew : ∀ j ∈ (pre ++ a :: post).map (·.2), j ≠ b.2 := by
      rintro j hj rfl
      exact hb hj
    have hab : a.2 ≠ b.2 :=
      hnew a.2 (List.mem_map_of_mem (List.mem_append_right pre List.mem_cons_self))
    obtain ⟨s', hs', ⟨-, heq, hlinked⟩ | ⟨-, heq, hlinked⟩⟩ :=
      forest_cons hs hT b (pre ++ a :: post)
    · rw [List.cons_append, heq, List.mem_cons, or_iff_right hab, ih hs' hlinked hnd]
      have hset : insert b.2 T ∪ {j | j ∈ forest keysOf s' (pre ++ a :: post) ∧ j ∈ pre.map (·.2)} =
          T ∪ {j | j ∈ b.2 :: forest keysOf s' (pre ++ a :: post) ∧ j ∈ (b :: pre).map (·.2)} := by
        ext j
        simp only [Set.mem_union, Set.mem_insert_iff, Set.mem_ofPred_eq, List.map_cons,
          List.mem_cons]
        tauto
      rw [hset]
    · rw [List.cons_append, heq, ih hs' hlinked hnd]
      have hset : T ∪ {j | j ∈ forest keysOf s' (pre ++ a :: post) ∧ j ∈ pre.map (·.2)} =
          T ∪ {j | j ∈ forest keysOf s' (pre ++ a :: post) ∧ j ∈ (b :: pre).map (·.2)} := by
        ext j
        have hne : j ∈ forest keysOf s' (pre ++ a :: post) → j ≠ b.2 :=
          fun hj => hnew j (mem_of_mem_forest j hj)
        simp only [Set.mem_union, Set.mem_ofPred_eq, List.map_cons, List.mem_cons]
        tauto
      rw [hset]

end Choice

end SubgraphSolver

/-! ### The factors of a problem -/

namespace FactorGraph

variable {α : Type} (g : FactorGraph α)

/-- The keys of the factor at an index. -/
def keysAt (i : ℕ) : List Key := ((g.factors[i]?).map Factor.keys).getD []

/-- The factors that are not on one variable. -/
def joining : Set ℕ := {i | i < g.size ∧ (g.keysAt i).length ≠ 1}

variable [Scalar α]

/-- The factor at an index has an error at a configuration. -/
def HasError (c : Config α) (i : ℕ) (e : α) : Prop :=
  ∃ f, g.factors[i]? = some f ∧ f.error c = .ok e

/-- One factor comes before another: by error at a configuration, then by index. -/
def Precedes (c : Config α) (i j : ℕ) : Prop :=
  ∃ a b, g.HasError c i a ∧ g.HasError c j b ∧ SubgraphSolver.Before (a, i) (b, j)

variable {g}

omit [Scalar α] in
theorem keysAt_of_getElem? {i : ℕ} {f : Factor α} (hf : g.factors[i]? = some f) :
    g.keysAt i = f.keys := by
  rw [keysAt, hf]
  rfl

theorem HasError.unique {c : Config α} {i : ℕ} {a b : α} (ha : g.HasError c i a)
    (hb : g.HasError c i b) : a = b := by
  obtain ⟨f, hf, ha⟩ := ha
  obtain ⟨f', hf', hb⟩ := hb
  obtain rfl : f = f' := Option.some.inj (hf.symm.trans hf')
  exact Except.ok.inj (ha.symm.trans hb)

theorem precedes_iff {c : Config α} {i j : ℕ} {a b : α} (ha : g.HasError c i a)
    (hb : g.HasError c j b) : g.Precedes c i j ↔ SubgraphSolver.Before (a, i) (b, j) := by
  constructor
  · rintro ⟨a', b', ha', hb', h⟩
    rwa [ha.unique ha', hb.unique hb']
  · exact fun h => ⟨a, b, ha, hb, h⟩

end FactorGraph

namespace SubgraphSolver

variable {α : Type} [Scalar α] {g : FactorGraph α} {c : Config α}

/-- **The candidates** are the factors that are not on one variable, with their errors, by
increasing index. -/
theorem candidates_spec {i : ℕ} {fs : List (Factor α)} {as : List (α × ℕ)}
    (h : (candidates c i fs).outcome = .ok as) : (as.map (·.2)).Pairwise (· < ·) ∧
      (∀ a ∈ as, ∃ n f, a.2 = i + n ∧ fs[n]? = some f ∧ f.keys.length ≠ 1 ∧ f.error c = .ok a.1) ∧
      ∀ n f, fs[n]? = some f → f.keys.length ≠ 1 → ∃ e, (e, i + n) ∈ as := by
  induction fs generalizing i as with
  | nil =>
    cases h
    simp
  | cons f fs ih =>
    rw [candidates] at h
    -- the factors after the first one have the indices after the first one
    have hnext : ∀ {rest}, (candidates c (i + 1) fs).outcome = .ok rest →
        (rest.map (·.2)).Pairwise (· < ·) ∧
        (∀ a ∈ rest, ∃ n f', a.2 = i + (n + 1) ∧ (f :: fs)[n + 1]? = some f' ∧ f'.keys.length ≠ 1 ∧
          f'.error c = .ok a.1) ∧
        ∀ n f', (f :: fs)[n + 1]? = some f' → f'.keys.length ≠ 1 →
            ∃ e, (e, i + (n + 1)) ∈ rest := by
      intro rest hrest
      have hi : ∀ n, i + (n + 1) = i + 1 + n := fun n => by omega
      obtain ⟨hsorted, hmem, hall⟩ := ih hrest
      refine ⟨hsorted, fun a ha => ?_, fun n f' hf hlen => ?_⟩
      · obtain ⟨n, f', hn, hf'⟩ := hmem a ha
        exact ⟨n, f', hn.trans (hi n).symm, hf'⟩
      · rw [hi]
        exact hall n f' hf hlen
    split at h
    · next hone =>
      obtain ⟨hsorted, hmem, hall⟩ := hnext h
      refine ⟨hsorted, fun a ha => ?_, fun n f' hf hlen => ?_⟩
      · obtain ⟨n, f', hn, hf'⟩ := hmem a ha
        exact ⟨n + 1, f', hn, hf'⟩
      · cases n with
        | zero =>
          cases hf
          exact absurd hone hlen
        | succ n => exact hall n f' hf hlen
    · next hlen =>
      obtain ⟨e, he, h⟩ := Logged.outcome_bind_eq_ok.mp h
      obtain ⟨rest, hrest, h⟩ := Logged.outcome_bind_eq_ok.mp h
      cases h
      have he := FactorGraph.outcome_atFactor_eq_ok.mp he
      obtain ⟨hsorted, hmem, hall⟩ := hnext hrest
      refine ⟨List.pairwise_cons.mpr ⟨fun j hj => ?_, hsorted⟩,
        List.forall_mem_cons.mpr ⟨?_, fun a ha => ?_⟩, fun n f' hf hlen => ?_⟩
      · obtain ⟨a, ha, rfl⟩ := List.mem_map.mp hj
        obtain ⟨n, f', hn, -⟩ := hmem a ha
        change i < a.2
        omega
      · exact ⟨0, f, rfl, rfl, hlen, he⟩
      · obtain ⟨n, f', hn, hf'⟩ := hmem a ha
        exact ⟨n + 1, f', hn, hf'⟩
      · cases n with
        | zero => exact ⟨e, List.mem_cons_self⟩
        | succ n => exact (hall n f' hf hlen).imp fun _ => List.mem_cons_of_mem _

variable (g) in
/-- The factors of the subgraph that are not on one variable. -/
def selected (s : SubgraphSolver α) : Set ℕ := {i | i ∈ g.joining ∧ s.mask[i]? = some true}

omit [Scalar α] in
theorem getElem?_mask_iff {as : List (α × ℕ)} {i : ℕ} :
    (g.factors.zipIdx.map fun f => f.1.keys.length == 1 || (forest g.keysAt .empty as).contains
      f.2)[i]? = some true ↔
      i < g.size ∧ ((g.keysAt i).length = 1 ∨ i ∈ forest g.keysAt .empty as) := by
  rw [List.getElem?_map, List.getElem?_zipIdx, Nat.zero_add]
  rcases hf : g.factors[i]? with _ | f
  · have hle : ¬ i < g.size := not_lt.mpr (List.getElem?_eq_none_iff.mp hf)
    simp [hle]
  · have hlt : i < g.size := (List.getElem?_eq_some_iff.mp hf).1
    simp [hlt, FactorGraph.keysAt_of_getElem? hf]

theorem mem_selected_iff {s : SubgraphSolver α} {as : List (α × ℕ)}
    (hmask : s.mask = g.factors.zipIdx.map fun f =>
    f.1.keys.length == 1 || (forest g.keysAt .empty (sortCandidates as)).contains f.2) {i : ℕ}
      (hi : i ∈ g.joining) :
    i ∈ s.selected g ↔ i ∈ forest g.keysAt .empty (sortCandidates as) := by
  change i ∈ g.joining ∧ s.mask[i]? = some true ↔ _
  rw [hmask, getElem?_mask_iff, and_iff_right hi, and_iff_right hi.1, or_iff_right hi.2]

theorem build_eq_ok {params : GradientParams α} {s : SubgraphSolver α}
    (h : (build g c params).outcome = .ok s) :
    ∃ as, (candidates c 0 g.factors).outcome = .ok as ∧ s.mask = g.factors.zipIdx.map fun f =>
      f.1.keys.length == 1 || (forest g.keysAt .empty (sortCandidates as)).contains f.2 := by
  unfold build at h
  obtain ⟨_, -, h⟩ := Logged.outcome_bind_eq_ok.mp h
  obtain ⟨as, has, h⟩ := Logged.outcome_bind_eq_ok.mp h
  rw [Logged.outcome_report_bind] at h
  cases h
  exact ⟨as, has, rfl⟩

section Candidates
variable {as : List (α × ℕ)} (has : (candidates c 0 g.factors).outcome = .ok as)
include has

theorem of_mem_candidates {e : α} {i : ℕ} (h : (e, i) ∈ as) : i ∈ g.joining ∧ g.HasError c i e := by
  obtain ⟨n, f, rfl, hf, hlen, he⟩ := (candidates_spec has).2.1 _ h
  rw [Nat.zero_add]
  exact ⟨⟨(List.getElem?_eq_some_iff.mp hf).1, by rwa [FactorGraph.keysAt_of_getElem? hf]⟩,
    f, hf, he⟩

theorem exists_mem_candidates {i : ℕ} (hi : i ∈ g.joining) : ∃ e, (e, i) ∈ as := by
  obtain ⟨hlt, hlen⟩ := hi
  have hf : g.factors[i]? = some g.factors[i] := List.getElem?_eq_getElem hlt
  rw [FactorGraph.keysAt_of_getElem? hf] at hlen
  have hmem := (candidates_spec has).2.2 i _ hf hlen
  rwa [Nat.zero_add] at hmem

theorem nodup_sortCandidates : ((sortCandidates as).map (·.2)).Nodup :=
  ((perm_sortCandidates as).map _).nodup_iff.mpr ((candidates_spec has).1.imp Nat.ne_of_lt)

variable [Scalar.LawfulTotalLE α]

theorem mem_pre_iff_precedes {pre post : List (α × ℕ)} {e : α} {i j : ℕ}
    (hsplit : sortCandidates as = pre ++ (e, i) :: post) (hj : j ∈ g.joining) :
    j ∈ pre.map (·.2) ↔ g.Precedes c j i := by
  have hperm := perm_sortCandidates as
  have hsorted := pairwise_sortCandidates as
  have hnd := nodup_sortCandidates has
  rw [hsplit] at hperm hsorted hnd
  obtain ⟨a, ha⟩ := exists_mem_candidates has hj
  have haj := (of_mem_candidates has ha).2
  have hei :=
    (of_mem_candidates has (hperm.mem_iff.mp (List.mem_append_right pre List.mem_cons_self))).2
  rw [FactorGraph.precedes_iff haj hei, ← mem_pre_iff_before hsorted hnd (hperm.mem_iff.mpr ha)]
  constructor
  · intro hmem
    obtain ⟨⟨a', j'⟩, hpre, rfl⟩ := List.mem_map.mp hmem
    have ha' := (of_mem_candidates has (hperm.mem_iff.mp (List.mem_append_left _ hpre))).2
    rwa [haj.unique ha']
  · exact fun hmem => List.mem_map_of_mem (f := (·.2)) hmem

end Candidates

section Precedes
variable [Scalar.LawfulTotalLE α]

theorem precedes_trans {i j n : ℕ} (hij : g.Precedes c i j) (hjn : g.Precedes c j n) :
    g.Precedes c i n := by
  obtain ⟨a, b, ha, hb, hab⟩ := hij
  obtain ⟨b', d, hb', hd, hbd⟩ := hjn
  rw [← hb.unique hb'] at hbd
  exact ⟨a, d, ha, hd, before_trans hab hbd⟩

end Precedes

section Build
variable {params : GradientParams α} {s : SubgraphSolver α} (h : (build g c params).outcome = .ok s)
include h

theorem length_mask : s.mask.length = g.size := by
  obtain ⟨as, -, hmask⟩ := build_eq_ok h
  rw [hmask, List.length_map, List.length_zipIdx]
  rfl

variable [Scalar.LawfulTotalLE α]

/-- **A factor is in the subgraph exactly if those that precede it link no two of its keys.** -/
theorem mem_selected_iff_pairwise {i : ℕ} (hi : i ∈ g.joining) : i ∈ s.selected g ↔
    (g.keysAt i).Pairwise fun k l =>
    ¬ Linked g.keysAt {j ∈ s.selected g | g.Precedes c j i} k l := by
  obtain ⟨as, has, hmask⟩ := build_eq_ok h
  obtain ⟨e, he⟩ := exists_mem_candidates has hi
  have hnd := nodup_sortCandidates has
  obtain ⟨pre, post, hsplit⟩ := List.append_of_mem ((perm_sortCandidates as).mem_iff.mpr he)
  have hset : {j ∈ s.selected g | g.Precedes c j i} =
      ∅ ∪ {j | j ∈ forest g.keysAt .empty (sortCandidates as) ∧
      j ∈ pre.map (·.2)} := by
    rw [Set.empty_union]
    ext j
    constructor
    · rintro ⟨hj, hji⟩
      exact ⟨(mem_selected_iff hmask hj.1).mp hj, (mem_pre_iff_precedes has hsplit hj.1).mpr hji⟩
    · rintro ⟨hj, hpre⟩
      obtain ⟨a, ha, rfl⟩ := List.mem_map.mp (mem_of_mem_forest j hj)
      have hjoin := (of_mem_candidates has ((perm_sortCandidates as).mem_iff.mp ha)).1
      exact ⟨(mem_selected_iff hmask hjoin).mpr hj, (mem_pre_iff_precedes has hsplit hjoin).mp hpre⟩
  rw [hset, mem_selected_iff hmask hi]
  rw [hsplit] at hnd ⊢
  exact mem_forest_iff DisjointSets.sound_empty
    (fun k l => DisjointSets.together_empty.trans linked_empty.symm) hnd

/-- **The subgraph is chosen greedily.** -/
theorem isGreedy_selected : IsGreedy g.keysAt (g.Precedes c) g.joining (s.selected g) := by
  obtain ⟨as, has, -⟩ := build_eq_ok h
  refine ⟨fun _ _ _ => precedes_trans, fun i hi j hj hij => ?_, fun i hi => hi.1, fun i hi => ?_,
    fun i hi hiT => ?_⟩
  · obtain ⟨a, ha⟩ := exists_mem_candidates has hi
    obtain ⟨b, hb⟩ := exists_mem_candidates has hj
    have ha := (of_mem_candidates has ha).2
    have hb := (of_mem_candidates has hb).2
    rw [FactorGraph.precedes_iff ha hb, FactorGraph.precedes_iff hb ha]
    exact before_total hij
  · exact (mem_selected_iff_pairwise h hi.1).mp hi
  · exact mt (mem_selected_iff_pairwise h hi).mpr hiT

end Build

theorem exists_related_of_not_pairwise {ks : List Key} {R : Key → Key → Prop}
    (h : ¬ ks.Pairwise fun k l => ¬ R k l) :
    ∃ (p q : ℕ) (k l : Key), p < q ∧ ks[p]? = some k ∧ ks[q]? = some l ∧ R k l := by
  rw [List.pairwise_iff_getElem] at h
  push Not at h
  obtain ⟨p, q, hp, hq, hpq, hR⟩ := h
  exact ⟨p, q, ks[p], ks[q], hpq, List.getElem?_eq_getElem hp, List.getElem?_eq_getElem hq, hR⟩

/-- **The subgraph of a problem is a spanning forest of first factors.** If a subgraph is chosen,
then it has all factors on one variable. Of the other factors, in the order of their errors and then
their indices, it has those whose variables are pairwise not linked by the ones it has so far; so a
factor that it lacks has two variables that such factors link.

If all of these factors have two variables, then those of the subgraph link the same variables as
all of them do and have no cycles, and a factor that is not in the subgraph comes after the factors
on the way between its variables. -/
theorem build_spanningForest [Scalar.LawfulTotalLE α] {params : GradientParams α}
    {s : SubgraphSolver α} (h : (build g c params).outcome = .ok s) :
    s.mask.length = g.size ∧
    (∀ i < g.size, (g.keysAt i).length = 1 → s.mask[i]? = some true) ∧
    (∀ i ∈ s.selected g, (g.keysAt i).Pairwise fun k l =>
      ¬ Linked g.keysAt {j ∈ s.selected g | g.Precedes c j i} k l) ∧
    (∀ i ∈ g.joining, i ∉ s.selected g → ∃ (p q : ℕ) (k l : Key), p < q ∧
      (g.keysAt i)[p]? = some k ∧ (g.keysAt i)[q]? = some l ∧
      Linked g.keysAt {j ∈ s.selected g | g.Precedes c j i} k l) ∧
    ((∀ i ∈ g.joining, (g.keysAt i).length = 2) →
      (∀ k l, Linked g.keysAt (s.selected g) k l ↔ Linked g.keysAt g.joining k l) ∧
      (∀ k is, Trail g.keysAt (s.selected g) k is k → is.Nodup → is = []) ∧
      ∀ i ∈ g.joining, i ∉ s.selected g → ∀ k ∈ g.keysAt i, ∀ l ∈ g.keysAt i,
        (∃ is, Trail g.keysAt (s.selected g) k is l ∧ is.Nodup) ∧
        ∀ is, Trail g.keysAt (s.selected g) k is l → is.Nodup → ∀ j ∈ is, g.Precedes c j i) := by
  have hgreedy := isGreedy_selected h
  obtain ⟨as, -, hmask⟩ := build_eq_ok h
  refine ⟨length_mask h, fun i hi hone => ?_, hgreedy.apart, fun i hi hiT => ?_,
    fun htwo => ⟨?_, ?_, ?_⟩⟩
  · rw [hmask, getElem?_mask_iff]
    exact ⟨hi, .inl hone⟩
  · exact exists_related_of_not_pairwise (hgreedy.joined i hi hiT)
  · exact fun k l => hgreedy.linked_iff htwo
  · exact fun k is htrail hnd => hgreedy.eq_nil_of_trail htwo htrail hnd
  · intro i hi hiT k hk l hl
    have hlinked :=
      (hgreedy.linked_of_not_mem htwo hi hiT hk hl).mono (Set.sep_subset (s.selected g) _)
    exact ⟨hlinked.exists_trail,
      fun is htrail hnd => hgreedy.before_of_trail htwo hi hiT hk hl htrail hnd⟩

end SubgraphSolver

/-! ### A triangle -/

namespace Triangle

def corner (i : UInt64) : Key := ⟨'x', i⟩

/-- The second corner is one past the first one. -/
def side (i j : UInt64) : Factor Float :=
  .between ⟨corner i, corner j, .rn ⟨[1]⟩, ⟨.unit, Mat.identity 1⟩⟩

/-- A prior at the first corner, and the three sides. -/
def graph : FactorGraph Float :=
  ⟨[.prior ⟨corner 0, .rn ⟨[0]⟩, ⟨.unit, Mat.identity 1⟩⟩, side 0 2, side 1 2, side 0 1]⟩

/-- Only the last side has its length. -/
def config : Config Float :=
  ⟨[(corner 0, .rn ⟨[0]⟩), (corner 1, .rn ⟨[1]⟩), (corner 2, .rn ⟨[3]⟩)], by decide⟩

/-- The longest side is not in the subgraph, and the way around it has the other sides. -/
theorem build_spanningForest_triangle :
    ∃ s, (SubgraphSolver.build graph config GradientParams.default).outcome = .ok s ∧
      s.mask = [true, false, true, true] ∧
      ∃ is, Trail graph.keysAt (s.selected graph) (corner 0) is (corner 2) ∧
        ∀ j ∈ is, graph.Precedes config j 1 := by
  have hok : (SubgraphSolver.build graph config GradientParams.default).outcome.toOption.map
      (·.mask) = some [true, false, true, true] := by decide +kernel
  obtain ⟨s, hs, hmask⟩ := Option.map_eq_some_iff.mp hok
  have hs : (SubgraphSolver.build graph config GradientParams.default).outcome = .ok s := by
    cases h : (SubgraphSolver.build graph config GradientParams.default).outcome with
    | error e =>
      rw [h] at hs
      cases hs
    | ok s' =>
      rw [h] at hs
      exact congrArg Except.ok (Option.some.inj hs)
  have htwo : ∀ i ∈ graph.joining, (graph.keysAt i).length = 2 := by
    rintro i ⟨hi, hlen⟩
    have hsides : ∀ i < 4, (graph.keysAt i).length = 1 ∨ (graph.keysAt i).length = 2 := by decide
    exact (hsides i hi).resolve_left hlen
  have hlongest : 1 ∉ s.selected graph := by
    rintro ⟨-, hmem⟩
    rw [hmask] at hmem
    cases hmem
  obtain ⟨-, -, -, -, hspanning⟩ := SubgraphSolver.build_spanningForest hs
  obtain ⟨⟨is, htrail, hnd⟩, hbefore⟩ :=
    (hspanning htwo).2.2 1 ⟨by decide, by decide⟩ hlongest (corner 0) (by decide)
    (corner 2) (by decide)
  exact ⟨s, hs, hmask, is, htrail, hbefore is htrail hnd⟩

end Triangle

end Smoothing
