import Mathlib
import Smoothing.Proofs.EliminationOrder

/-!
# Fill paths

Before a step of the greedy order two variables are neighbours if and only if the graph of the
problem has a path from one to the other through variables that are done. A step that takes a
variable makes it a variable that paths may go through, as in the computation of all reachable pairs
one pivot after the other (`through_concat_iff`). So the neighbours that are removed with a variable
are the later ones at the end of such a path (`EliminationOrder.mem_neighbours_iff`).
-/

namespace Smoothing

variable {α : Type}

/-- The graph of a problem: two variables are joined if a factor mentions both. -/
def FactorGraph.variableGraph (g : FactorGraph α) : SimpleGraph Key where
  Adj k j := k ≠ j ∧ ∃ f ∈ g.factors, k ∈ f.keys ∧ j ∈ f.keys
  symm := ⟨fun _ _ ⟨hne, f, hf, hk, hj⟩ => ⟨hne.symm, f, hf, hj, hk⟩⟩
  loopless := ⟨fun _ h => h.1 rfl⟩

/-- A path leads from one variable to another, and the variables between them are in a list. -/
def FactorGraph.HasPathThrough (g : FactorGraph α) (between : List Key) (k j : Key) : Prop :=
  ∃ p : g.variableGraph.Path k j, ∀ v ∈ p.1.support, v ≠ k → v ≠ j → v ∈ between

/-! ### One pivot after the other -/

/-- A relation leads from one key to another in one step or through keys of a list. -/
inductive Through (R : Key → Key → Prop) (between : List Key) : Key → Key → Prop
  | edge {k j} (h : R k j) : Through R between k j
  | step {k v j} (h : R k v) (hv : v ∈ between) (hrest : Through R between v j) :
    Through R between k j

namespace Through

variable {R : Key → Key → Prop} {between between' : List Key} {k v j : Key}

theorem mono (hsub : ∀ v ∈ between, v ∈ between') (h : Through R between k j) :
    Through R between' k j := by
  induction h with
  | edge h => exact .edge h
  | step h hv _ ih => exact .step h (hsub _ hv) ih

theorem trans (hv : v ∈ between) (h : Through R between k v) (h' : Through R between v j) :
    Through R between k j := by
  induction h with
  | edge h => exact .step h hv h'
  | step h hw _ ih => exact .step h hw (ih hv h')

end Through

/-- **A further pivot** leads from all keys before it to all keys after it. -/
theorem through_concat_iff {R : Key → Key → Prop} {between : List Key} {k v j : Key} :
    Through R (between ++ [v]) k j ↔ Through R between k j ∨ Through R between k v ∧
    Through R between v j := by
  have hsub : ∀ w ∈ between, w ∈ between ++ [v] := fun w hw => List.mem_append_left _ hw
  constructor
  · intro h
    induction h with
    | edge h => exact .inl (.edge h)
    | step h hw _ ih =>
      rcases List.mem_append.mp hw with hw | hw
      · exact ih.imp (.step h hw) fun ⟨hwv, hvj⟩ => ⟨.step h hw hwv, hvj⟩
      · obtain rfl := List.mem_singleton.mp hw
        exact .inr ⟨.edge h, ih.elim id And.right⟩
  · rintro (h | ⟨h, h'⟩)
    · exact h.mono hsub
    · exact .trans (List.mem_append_right _ (List.mem_singleton_self v)) (h.mono hsub)
        (h'.mono hsub)

/-! ### Paths -/

section Paths
variable {G : SimpleGraph Key} {between : List Key} {k j : Key}

theorem exists_walk_of_through (h : Through G.Adj between k j) :
    ∃ p : G.Walk k j, ∀ v ∈ p.support, v ≠ k → v ≠ j → v ∈ between := by
  induction h with
  | edge h => exact ⟨h.toWalk, by simp⟩
  | @step k v j h hv _ ih =>
    obtain ⟨p, hp⟩ := ih
    refine ⟨.cons h p, fun w hw hk hj => ?_⟩
    rw [SimpleGraph.Walk.support_cons, List.mem_cons] at hw
    by_cases hwv : w = v
    · exact hwv ▸ hv
    · exact hp w (hw.resolve_left hk) hwv hj

theorem through_of_isPath {p : G.Walk k j} (hne : k ≠ j) (hp : p.IsPath)
    (hbetween : ∀ v ∈ p.support, v ≠ k → v ≠ j → v ∈ between) : Through G.Adj between k j := by
  induction p with
  | nil => exact absurd rfl hne
  | @cons k v j h q ih =>
    obtain ⟨hq, hk⟩ := (SimpleGraph.Walk.cons_isPath_iff h q).mp hp
    have hsupport : ∀ w ∈ q.support, w ≠ j → w ∈ between := fun w hw hj =>
      hbetween w (List.mem_cons_of_mem _ hw) (fun hwk => hk (hwk ▸ hw)) hj
    by_cases hvj : v = j
    · exact hvj ▸ .edge h
    · exact .step h (hsupport v q.start_mem_support hvj) (ih hvj hq fun w hw _ hj =>
        hsupport w hw hj)

/-- **A path through keys of a list** to another key. -/
theorem through_iff_exists_path (hne : k ≠ j) :
    Through G.Adj between k j ↔ ∃ p : G.Path k j, ∀ v ∈ p.1.support, v ≠ k → v ≠ j →
    v ∈ between := by
  constructor
  · intro h
    obtain ⟨p, hp⟩ := exists_walk_of_through h
    exact ⟨p.toPath, fun v hv => hp v (p.support_toPath_subset_support hv)⟩
  · rintro ⟨p, hp⟩
    exact through_of_isPath hne p.2 hp

end Paths

/-! ### The neighbours that are removed -/

namespace EliminationOrder

open Adjacency

/-- The neighbours before a step are those that are joined through variables that are done. -/
def Adjacency.IsFilled (R : Key → Key → Prop) (done : List Key) (a : Adjacency) : Prop :=
  ∀ k j, a.Joins k j ↔ k ∉ done ∧ j ∉ done ∧ k ≠ j ∧ Through R done k j

theorem isFilled_adjacency (g : FactorGraph α) : (adjacency g).IsFilled g.variableGraph.Adj [] := by
  intro k j
  have hthrough : Through g.variableGraph.Adj [] k j ↔ g.variableGraph.Adj k j := by
    refine ⟨fun h => ?_, .edge⟩
    cases h with
    | edge h => exact h
    | step _ hv => cases hv
  rw [(adjacency_spec g).2, hthrough]
  simp [FactorGraph.variableGraph]

/-- **A step fills in** what is joined through its variable. -/
theorem isFilled_remove {R : Key → Key → Prop} {all done : List Key} {a : Adjacency} {k : Key}
    {s : KeySet} (hrest : a.IsRest all done) (h : a.IsFilled R done)
    (hf : fewest a.entries = some (k, s)) : (remove a k s).IsFilled R (done ++ [k]) := by
  intro n j
  have hk : k ∉ done := ((hrest.mem_keys_iff k).mp (mem_keys_of_fewest hf)).2
  rw [joins_remove hrest.isGraph (get?_of_fewest hf), h n j, h n k, h k j, through_concat_iff,
    List.mem_append, List.mem_append, List.mem_singleton, List.mem_singleton]
  have hkj : k ≠ j ↔ j ≠ k := ne_comm
  tauto

variable {g : FactorGraph α} {i : ℕ} {t : GreedyStep} (ht : (minDegreeRun g)[i]? = some t)
include ht

theorem isFilled_before : t.before.IsFilled g.variableGraph.Adj ((minDegree g).keys.take i) :=
  (invariant_of_greedyRun (P := fun done a => a.IsRest (minDegree g).keys done ∧
    a.IsFilled g.variableGraph.Adj done)
    (fun h hf => ⟨isRest_remove h.1 hf, isFilled_remove h.1 h.2 hf⟩) ⟨isRest_adjacency g,
      isFilled_adjacency g⟩ ht).1.2

/-- **The neighbours that are removed with a variable** are the later variables that it has a path
to through earlier ones. -/
theorem mem_neighbours_iff {j : Key} : j ∈ t.neighbours.keys ↔
    j ∈ (minDegree g).keys.drop (i + 1) ∧ g.HasPathThrough ((minDegree g).keys.take i) t.key j := by
  have hrest := isRest_before ht
  have hf := fewest_before ht
  have hkey := ((hrest.mem_keys_iff t.key).mp (mem_keys_of_fewest hf)).2
  have hnodup : (t.key :: (minDegree g).keys.drop (i + 1)).Nodup :=
    drop_minDegree ht ▸ (minDegree g).nodup.drop
  have hlater : j ∈ (minDegree g).keys.drop (i + 1) ↔ j ∈ t.before.keys ∧ t.key ≠ j := by
    rw [hrest.mem_keys_iff, ← mem_drop_iff (minDegree g).nodup, drop_minDegree ht, List.mem_cons]
    have hne : t.key = j → j ∉ (minDegree g).keys.drop (i + 1) :=
      fun h => h ▸ (List.nodup_cons.mp hnodup).1
    have hcomm : t.key = j ↔ j = t.key := eq_comm
    tauto
  rw [← joins_iff (get?_of_fewest hf), hlater]
  constructor
  · intro h
    obtain ⟨-, -, hne, hthrough⟩ := (isFilled_before ht _ _).mp h
    exact ⟨⟨hrest.isGraph.mem_keys h, hne⟩, (through_iff_exists_path hne).mp hthrough⟩
  · rintro ⟨⟨hj, hne⟩, hpath⟩
    exact (isFilled_before ht _ _).mpr ⟨hkey, ((hrest.mem_keys_iff j).mp hj).2, hne,
      (through_iff_exists_path hne).mpr hpath⟩

end EliminationOrder

end Smoothing
