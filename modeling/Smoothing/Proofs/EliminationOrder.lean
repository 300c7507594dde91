import Mathlib
import Smoothing.Proofs.FactorGraph
import Smoothing.Scalar.Binary64

/-!
# The greedy elimination order

The greedy order takes the variables of a map of neighbours one after the other and changes the map
at every step. The run of this loop is the list of its steps, each with the map before it
(`minDegreeRun`). A map of neighbours is the relation it stands for (`Adjacency.Joins`,
`Adjacency.ext`). This relation is known at the start (`adjacency_spec`), and a step changes it in
one way (`joins_remove`), as long as the neighbours are mutual (`Adjacency.IsGraph`). What one step
preserves holds before every step (`invariant_of_greedyRun`).

Main statement: `EliminationOrder.minDegree_spec`, the greedy order is an order of all variables,
every step takes a variable with the fewest neighbours among those that are left, and neither the
sequence of the factors nor that of the keys of a factor matters.
-/

namespace Smoothing

variable {α : Type}

theorem exists_mem_iff_of_forall₂ {β γ : Type} {R : β → γ → Prop} {P : β → Prop} {Q : γ → Prop}
    {bs : List β} {cs : List γ} (h : List.Forall₂ R bs cs) (hR : ∀ {b c}, R b c → (P b ↔ Q c)) :
    (∃ b ∈ bs, P b) ↔ ∃ c ∈ cs, Q c := by
  induction h with
  | nil => simp
  | cons hbc _ ih => rw [List.exists_mem_cons_iff, List.exists_mem_cons_iff, ih, hR hbc]

namespace EliminationOrder

/-! ### Sets and the first entry with the fewest neighbours -/

theorem mem_keys_addAll {s : KeySet} {ks : List Key} {j : Key} :
    j ∈ (addAll s ks).keys ↔ j ∈ s.keys ∨ j ∈ ks := by
  unfold addAll
  induction ks generalizing s with
  | nil => simp
  | cons k ks ih =>
    rw [List.foldl_cons, ih, KeyMap.add, KeyMap.mem_keys_insert, List.mem_cons]
    tauto

theorem mem_keys_erase {s : KeySet} {k j : Key} : j ∈ (s.erase k).keys ↔ j ≠ k ∧ j ∈ s.keys := by
  rw [KeyMap.mem_keys, KeyMap.mem_keys, KeyMap.get?_erase]
  split_ifs with h <;> simp [h]

theorem keySet_ext {s t : KeySet} (h : ∀ k, k ∈ s.keys ↔ k ∈ t.keys) : s = t := by
  refine KeyMap.ext fun k => ?_
  by_cases hk : k ∈ s.keys
  · obtain ⟨u, hu⟩ := KeyMap.mem_keys_iff_exists.mp hk
    obtain ⟨v, hv⟩ := KeyMap.mem_keys_iff_exists.mp ((h k).mp hk)
    rw [hu, hv]
  · rw [KeyMap.get?_eq_none_iff.mpr hk, KeyMap.get?_eq_none_iff.mpr (mt (h k).mpr hk)]

theorem fewest_eq_none_iff {es : List (Key × KeySet)} : fewest es = none ↔ es = [] := by
  cases es with
  | nil => simp [fewest]
  | cons e es =>
    rw [fewest]
    split
    · simp
    · split_ifs <;> simp

/-- **The entry that is taken has the fewest neighbours**, and of those the least key. -/
theorem le_of_fewest {es : List (Key × KeySet)} {e : Key × KeySet}
    (hsorted : es.Pairwise fun a b => a.1 < b.1) (h : fewest es = some e) :
    ∀ e' ∈ es, e.2.size < e'.2.size ∨ e.2.size = e'.2.size ∧ ¬ e'.1 < e.1 := by
  induction es generalizing e with
  | nil => simp
  | cons f es ih =>
    obtain ⟨hf, hes⟩ := List.pairwise_cons.mp hsorted
    rw [fewest] at h
    rw [List.forall_mem_cons]
    split at h
    · next hnone =>
      obtain rfl := Option.some.inj h
      rw [fewest_eq_none_iff.mp hnone]
      exact ⟨.inr ⟨rfl, Key.lt_irrefl _⟩, by simp⟩
    · next e' he' =>
      have hle := ih hes he'
      split_ifs at h with hless
      · obtain rfl := Option.some.inj h
        exact ⟨.inl hless, hle⟩
      · obtain rfl := Option.some.inj h
        refine ⟨.inr ⟨rfl, Key.lt_irrefl _⟩, fun x hx => ?_⟩
        have hx' := Key.lt_asymm (hf x hx)
        rcases hle x hx with hlt | ⟨heq, -⟩
        · exact .inl (by omega)
        · rcases (show f.2.size < x.2.size ∨ f.2.size = x.2.size by omega) with hlt | heq'
          · exact .inl hlt
          · exact .inr ⟨heq', hx'⟩

/-! ### The relation of a map of neighbours -/

namespace Adjacency

/-- A variable is among the neighbours of another. -/
def Joins (a : Adjacency) (k j : Key) : Prop := ∃ s, a.get? k = some s ∧ j ∈ s.keys

theorem Joins.mem_keys {a : Adjacency} {k j : Key} (h : a.Joins k j) : k ∈ a.keys := by
  obtain ⟨s, hs, -⟩ := h
  exact KeyMap.mem_keys_iff_exists.mpr ⟨s, hs⟩

theorem joins_iff {a : Adjacency} {k j : Key} {s : KeySet} (h : a.get? k = some s) :
    a.Joins k j ↔ j ∈ s.keys := by
  constructor
  · rintro ⟨s', hs', hj⟩
    rwa [Option.some.inj (h.symm.trans hs')]
  · exact fun hj => ⟨s, h, hj⟩

/-- **Maps of neighbours of the same variables are equal** if they have the same neighbours. -/
theorem ext {a b : Adjacency} (hkeys : ∀ k, k ∈ a.keys ↔ k ∈ b.keys)
    (hjoins : ∀ k j, a.Joins k j ↔ b.Joins k j) : a = b := by
  refine KeyMap.ext fun k => ?_
  by_cases hk : k ∈ a.keys
  · obtain ⟨s, hs⟩ := KeyMap.mem_keys_iff_exists.mp hk
    obtain ⟨t, ht⟩ := KeyMap.mem_keys_iff_exists.mp ((hkeys k).mp hk)
    have hst : s = t := keySet_ext fun j => by rw [← joins_iff hs, ← joins_iff ht, hjoins]
    rw [hs, ht, hst]
  · rw [KeyMap.get?_eq_none_iff.mpr hk, KeyMap.get?_eq_none_iff.mpr (mt (hkeys k).mpr hk)]

/-- The neighbours are mutual, and no variable is its own neighbour. -/
structure IsGraph (a : Adjacency) : Prop where
  symm : ∀ {k j}, a.Joins k j → a.Joins j k
  irrefl : ∀ k, ¬ a.Joins k k

theorem IsGraph.mem_keys {a : Adjacency} (h : a.IsGraph) {k j : Key} (hkj : a.Joins k j) :
    j ∈ a.keys :=
  (h.symm hkj).mem_keys

end Adjacency

open Adjacency

/-! ### The map at the start -/

theorem joins_insert {a : Adjacency} {k' : Key} {l : List Key} {k j : Key} :
    Joins (a.insert k' (addAll ((a.get? k').getD KeyMap.empty) l)) k j ↔ a.Joins k j ∨
    k = k' ∧ j ∈ l := by
  unfold Joins
  rw [KeyMap.get?_insert]
  split_ifs with h
  · subst h
    simp only [Option.some.injEq, exists_eq_left', mem_keys_addAll, true_and]
    refine or_congr_left ?_
    cases a.get? k with
    | none => simp [KeyMap.empty, KeyMap.keys]
    | some s => simp
  · simp [h]

theorem connectAll_spec {a : Adjacency} {ks : List Key} :
    (∀ k, k ∈ (connectAll a ks).keys ↔ k ∈ ks ∨ k ∈ a.keys) ∧
      ∀ k j, (connectAll a ks).Joins k j ↔ a.Joins k j ∨ k ≠ j ∧ k ∈ ks ∧ j ∈ ks := by
  -- the keys that are met grow, those that become their neighbours do not
  have hfoldl : ∀ (l : List Key) (a : Adjacency),
      let b : Adjacency :=
        l.foldl
          (fun a k => a.insert k (addAll ((a.get? k).getD KeyMap.empty) (ks.filter (· ≠ k)))) a
      (∀ k, k ∈ b.keys ↔ k ∈ l ∨ k ∈ a.keys) ∧
        ∀ k j, b.Joins k j ↔ a.Joins k j ∨ k ≠ j ∧ k ∈ l ∧ j ∈ ks := by
    intro l
    induction l with
    | nil => simp
    | cons i l ih =>
      intro a
      obtain ⟨hkeys, hjoins⟩ :=
        ih (a.insert i (addAll ((a.get? i).getD KeyMap.empty) (ks.filter (· ≠ i))))
      refine ⟨fun k => ?_, fun k j => ?_⟩
      · rw [List.foldl_cons, hkeys, KeyMap.mem_keys_insert, List.mem_cons]
        tauto
      · rw [List.foldl_cons, hjoins, joins_insert, List.mem_cons, List.mem_filter,
          decide_eq_true_eq]
        by_cases hk : k = i
        · subst hk
          tauto
        · tauto
  exact hfoldl ks a

/-- **The map at the start** has all variables, and those are neighbours that a factor mentions
both. -/
theorem adjacency_spec (g : FactorGraph α) :
    (∀ k, k ∈ (adjacency g).keys ↔ ∃ f ∈ g.factors, k ∈ f.keys) ∧
      ∀ k j, (adjacency g).Joins k j ↔ k ≠ j ∧ ∃ f ∈ g.factors, k ∈ f.keys ∧ j ∈ f.keys := by
  have hfoldl : ∀ (fs : List (Factor α)) (a : Adjacency),
      let b : Adjacency := fs.foldl (fun a f => connectAll a f.keys) a
      (∀ k, k ∈ b.keys ↔ (∃ f ∈ fs, k ∈ f.keys) ∨ k ∈ a.keys) ∧
        ∀ k j, b.Joins k j ↔ a.Joins k j ∨ k ≠ j ∧ ∃ f ∈ fs, k ∈ f.keys ∧ j ∈ f.keys := by
    intro fs
    induction fs with
    | nil => simp
    | cons f fs ih =>
      intro a
      obtain ⟨hkeys, hjoins⟩ := ih (connectAll a f.keys)
      refine ⟨fun k => ?_, fun k j => ?_⟩
      · rw [List.foldl_cons, hkeys, connectAll_spec.1, List.exists_mem_cons_iff]
        exact or_left_comm.trans or_assoc.symm
      · rw [List.foldl_cons, hjoins, connectAll_spec.2, List.exists_mem_cons_iff]
        tauto
  obtain ⟨hkeys, hjoins⟩ := hfoldl g.factors KeyMap.empty
  refine ⟨fun k => (hkeys k).trans ?_, fun k j => (hjoins k j).trans ?_⟩
  · simp [KeyMap.empty, KeyMap.keys]
  · simp [Joins]

theorem isGraph_adjacency (g : FactorGraph α) : (adjacency g).IsGraph where
  symm h := by
    obtain ⟨hne, f, hf, hk, hj⟩ := ((adjacency_spec g).2 _ _).mp h
    exact ((adjacency_spec g).2 _ _).mpr ⟨hne.symm, f, hf, hj, hk⟩
  irrefl k h := (((adjacency_spec g).2 k k).mp h).1 rfl

/-! ### A step -/

section Step
variable {a : Adjacency} (ha : a.IsGraph) {k : Key} {s : KeySet} (hs : a.get? k = some s)
include ha hs

/-- **A step joins the neighbours of the variable it takes**, and leaves the rest as it is. -/
theorem joins_remove {n j : Key} :
    (remove a k s).Joins n j ↔ n ≠ k ∧ j ≠ k ∧
    (a.Joins n j ∨ n ≠ j ∧ a.Joins n k ∧ a.Joins k j) := by
  by_cases hn : n = k
  · simp [Joins, remove, KeyMap.get?_map, KeyMap.get?_erase, hn]
  have hget : (remove a k s).get? n = (a.get? n).map fun t =>
      if s.contains n then addAll (t.erase k) (s.keys.filter (· ≠ n)) else t := by
    rw [remove, KeyMap.get?_map, KeyMap.get?_erase, if_neg hn]
  cases ht : a.get? n with
  | none =>
    have hnone : ∀ i, ¬ a.Joins n i := by
      rintro i ⟨t, ht', -⟩
      cases ht.symm.trans ht'
    have hleft : ¬ (remove a k s).Joins n j := by
      rintro ⟨t, ht', -⟩
      rw [hget, ht] at ht'
      cases ht'
    simp [hnone, hleft]
  | some t =>
    rw [ht, Option.map_some] at hget
    rw [joins_iff hget, joins_iff ht, joins_iff ht, joins_iff hs]
    -- the set of `k` is asked for `n`, but the relation is about the set of `n`
    have hcontains : s.contains n = true ↔ k ∈ t.keys := by
      rw [KeyMap.contains, ← KeyMap.mem_keys, ← joins_iff hs, ← joins_iff ht]
      exact ⟨ha.symm, ha.symm⟩
    have hk : k ∉ s.keys := fun h => ha.irrefl k ((joins_iff hs).mpr h)
    split_ifs with hmem
    · rw [mem_keys_addAll, mem_keys_erase, List.mem_filter, decide_eq_true_eq]
      have hkt := hcontains.mp hmem
      by_cases hj : j = k
      · subst hj
        tauto
      · tauto
    · have hkt := mt hcontains.mpr hmem
      by_cases hj : j = k
      · subst hj
        tauto
      · tauto

theorem isGraph_remove : (remove a k s).IsGraph where
  symm h := by
    rw [joins_remove ha hs] at h ⊢
    obtain ⟨hn, hj, h⟩ := h
    refine ⟨hj, hn, h.imp ha.symm fun ⟨hne, hnk, hkj⟩ => ⟨hne.symm, ha.symm hkj, ha.symm hnk⟩⟩
  irrefl n h := by
    obtain ⟨-, -, h | ⟨hne, -⟩⟩ := (joins_remove ha hs).mp h
    · exact ha.irrefl n h
    · exact hne rfl

end Step

/-! ### The run -/

theorem get?_of_fewest {a : Adjacency} {k : Key} {s : KeySet} (h : fewest a.entries = some (k, s)) :
    a.get? k = some s := KeyMap.get?_eq_some_iff.mpr (mem_of_fewest h)

theorem mem_keys_of_fewest {a : Adjacency} {k : Key} {s : KeySet}
    (h : fewest a.entries = some (k, s)) : k ∈ a.keys :=
  KeyMap.mem_keys_iff_exists.mpr ⟨s, get?_of_fewest h⟩

theorem perm_keys_remove {a : Adjacency} {k : Key} (s : KeySet) (hk : k ∈ a.keys) :
    (k :: (remove a k s).keys).Perm a.keys := by
  rw [keys_remove]
  have hnodup : (k :: a.keys.filter (· ≠ k)).Nodup :=
    List.nodup_cons.mpr ⟨by simp, a.nodup_keys.filter _⟩
  refine (List.perm_ext_iff_of_nodup hnodup a.nodup_keys).mpr fun j => ?_
  by_cases hj : j = k <;> simp [hj, hk]

theorem size_remove {a : Adjacency} {k : Key} (s : KeySet) (hk : k ∈ a.keys) :
    (remove a k s).size + 1 = a.size := by
  simpa [KeyMap.keys, KeyMap.size] using (perm_keys_remove s hk).length_eq

/-- A step of the loop: the neighbours before it, and the variable it takes with its neighbours. -/
structure GreedyStep where
  before : Adjacency
  key : Key
  neighbours : KeySet

/-- The steps of the loop, at most `n` of them. -/
def greedyRun : ℕ → Adjacency → List GreedyStep
  | 0, _ => []
  | n + 1, a =>
    match fewest a.entries with
    | none => []
    | some (k, s) => ⟨a, k, s⟩ :: greedyRun n (remove a k s)

/-- The steps that lead to the greedy order of a problem. -/
def minDegreeRun (g : FactorGraph α) : List GreedyStep := greedyRun (adjacency g).size (adjacency g)

theorem map_key_greedyRun (n : ℕ) (a : Adjacency) :
    (greedyRun n a).map GreedyStep.key = greedy n a := by
  induction n generalizing a with
  | zero => rfl
  | succ n ih =>
    rw [greedyRun, greedy]
    cases fewest a.entries with
    | none => rfl
    | some e => exact congrArg (e.1 :: ·) (ih _)

theorem greedy_succ {n : ℕ} {a : Adjacency} {k : Key} {s : KeySet}
    (h : fewest a.entries = some (k, s)) :
    greedy (n + 1) a = k :: greedy n (remove a k s) := by rw [greedy, h]

theorem greedy_of_fewest_eq_none {n : ℕ} {a : Adjacency} (h : fewest a.entries = none) :
    greedy n a = [] := by
  cases n with
  | zero => rfl
  | succ n => rw [greedy, h]

theorem greedyRun_succ {n : ℕ} {a : Adjacency} {k : Key} {s : KeySet}
    (h : fewest a.entries = some (k, s)) :
    greedyRun (n + 1) a = ⟨a, k, s⟩ :: greedyRun n (remove a k s) := by rw [greedyRun, h]

theorem greedyRun_of_fewest_eq_none {n : ℕ} {a : Adjacency} (h : fewest a.entries = none) :
    greedyRun n a = [] := by
  rw [← List.map_eq_nil_iff, map_key_greedyRun, greedy_of_fewest_eq_none h]

/-- **The loop takes all variables** if it may take as many steps as there are. -/
theorem perm_greedy {n : ℕ} {a : Adjacency} (hn : a.size ≤ n) : (greedy n a).Perm a.keys := by
  induction n generalizing a with
  | zero =>
    have hnil : a.entries = [] := List.length_eq_zero_iff.mp (Nat.le_zero.mp hn)
    simp [greedy, KeyMap.keys, hnil]
  | succ n ih =>
    cases hf : fewest a.entries with
    | none => simp [greedy_of_fewest_eq_none hf, KeyMap.keys, fewest_eq_none_iff.mp hf]
    | some e =>
      obtain ⟨k, s⟩ := e
      have hk := mem_keys_of_fewest hf
      have hsize := size_remove s hk
      rw [greedy_succ hf]
      exact ((ih (by omega)).cons k).trans (perm_keys_remove s hk)

theorem greedy_of_size_le {n m : ℕ} {a : Adjacency} (hn : a.size ≤ n) (hm : a.size ≤ m) :
    greedy n a = greedy m a := by
  induction n generalizing a m with
  | zero =>
    have hnil : a.entries = [] := List.length_eq_zero_iff.mp (Nat.le_zero.mp hn)
    have hf := fewest_eq_none_iff.mpr hnil
    rw [greedy_of_fewest_eq_none hf, greedy_of_fewest_eq_none hf]
  | succ n ih =>
    cases hf : fewest a.entries with
    | none => rw [greedy_of_fewest_eq_none hf, greedy_of_fewest_eq_none hf]
    | some e =>
      obtain ⟨k, s⟩ := e
      have hsize := size_remove s (mem_keys_of_fewest hf)
      obtain ⟨m, rfl⟩ : ∃ m', m = m' + 1 := Nat.exists_eq_add_one_of_ne_zero (by omega)
      rw [greedy_succ hf, greedy_succ hf, ih (m := m) (by omega) (by omega)]

/-- **What a step preserves holds before every step**, of the variables that are done and the
map. -/
theorem invariant_of_greedyRun {P : List Key → Adjacency → Prop}
    (hstep : ∀ {done a k s}, P done a → fewest a.entries = some (k, s) →
    P (done ++ [k]) (remove a k s)) {n : ℕ} {a : Adjacency} {done : List Key} (h : P done a) {i : ℕ}
    {t : GreedyStep} (ht : (greedyRun n a)[i]? = some t) :
    P (done ++ (greedy n a).take i) t.before ∧
      fewest t.before.entries = some (t.key, t.neighbours) := by
  induction n generalizing a done i with
  | zero => simp [greedyRun] at ht
  | succ n ih =>
    cases hf : fewest a.entries with
    | none => simp [greedyRun_of_fewest_eq_none hf] at ht
    | some e =>
      obtain ⟨k, s⟩ := e
      rw [greedyRun_succ hf] at ht
      cases i with
      | zero =>
        obtain rfl : ⟨a, k, s⟩ = t := by simpa using ht
        exact ⟨by simpa using h, hf⟩
      | succ i =>
        rw [greedy_succ hf, List.take_succ_cons, List.append_cons]
        exact ih (hstep h hf) (by simpa using ht)

/-- The variable of a step has the fewest neighbours, and of those that have as few it has the least
key. -/
structure GreedyStep.IsLeast (t : GreedyStep) : Prop where
  get?_eq : t.before.get? t.key = some t.neighbours
  le : ∀ j s, t.before.get? j = some s →
    t.neighbours.size < s.size ∨ t.neighbours.size = s.size ∧ ¬ j < t.key

theorem GreedyStep.isLeast_of_fewest {t : GreedyStep}
    (h : fewest t.before.entries = some (t.key, t.neighbours)) : t.IsLeast where
  get?_eq := get?_of_fewest h
  le j s hs := le_of_fewest t.before.sorted h (j, s) (KeyMap.get?_eq_some_iff.mp hs)

/-! ### The greedy order -/

theorem perm_minDegree (g : FactorGraph α) : (minDegree g).keys.Perm g.keys.keys := by
  have hkeys : (adjacency g).keys = g.keys.keys := KeyMap.keys_eq_of_mem_iff fun k => by
    rw [(adjacency_spec g).1, FactorGraph.keys, KeyMap.mem_keys_setOf, List.mem_flatMap]
  rw [← hkeys]
  exact perm_greedy le_rfl

/-- The neighbours of the variables that are left of a list when some are done. -/
structure Adjacency.IsRest (all done : List Key) (a : Adjacency) : Prop where
  isGraph : a.IsGraph
  mem_keys_iff : ∀ k, k ∈ a.keys ↔ k ∈ all ∧ k ∉ done

theorem isRest_adjacency (g : FactorGraph α) : (adjacency g).IsRest (minDegree g).keys [] where
  isGraph := isGraph_adjacency g
  mem_keys_iff k := by
    rw [and_iff_left List.not_mem_nil]
    exact (perm_greedy le_rfl).mem_iff.symm

theorem isRest_remove {all done : List Key} {a : Adjacency} {k : Key} {s : KeySet}
    (h : a.IsRest all done) (hf : fewest a.entries = some (k, s)) :
    (remove a k s).IsRest all (done ++ [k]) where
  isGraph := isGraph_remove h.isGraph (get?_of_fewest hf)
  mem_keys_iff j := by
    rw [keys_remove, List.mem_filter, h.mem_keys_iff]
    simp [and_assoc, not_or]

section Before
variable {g : FactorGraph α} {i : ℕ} {t : GreedyStep} (ht : (minDegreeRun g)[i]? = some t)
include ht

/-- **Before every step** neighbours are mutual, and they are neighbours of the variables that are
left. -/
theorem isRest_before : t.before.IsRest (minDegree g).keys ((minDegree g).keys.take i) :=
  (invariant_of_greedyRun isRest_remove (isRest_adjacency g) ht).1

theorem fewest_before : fewest t.before.entries = some (t.key, t.neighbours) :=
  (invariant_of_greedyRun isRest_remove (isRest_adjacency g) ht).2

theorem drop_minDegree : (minDegree g).keys.drop i = t.key :: (minDegree g).keys.drop (i + 1) := by
  have hkey : (minDegree g).keys[i]? = some t.key := by
    rw [show (minDegree g).keys = (minDegreeRun g).map GreedyStep.key
      from (map_key_greedyRun _ _).symm, List.getElem?_map, ht, Option.map_some]
  obtain ⟨hi, hkey⟩ := List.getElem?_eq_some_iff.mp hkey
  rw [List.drop_eq_getElem_cons hi, hkey]

end Before

theorem mem_drop_iff {ks : List Key} (hnodup : ks.Nodup) {i : ℕ} {k : Key} :
    k ∈ ks.drop i ↔ k ∈ ks ∧ k ∉ ks.take i := by
  have hdisjoint := List.disjoint_take_drop hnodup (le_refl i)
  have hsplit : k ∈ ks ↔ k ∈ ks.take i ∨ k ∈ ks.drop i := by
    rw [← List.mem_append, List.take_append_drop]
  rw [hsplit]
  exact ⟨fun h => ⟨.inr h, fun h' => hdisjoint h' h⟩, fun ⟨h, hn⟩ => h.resolve_left hn⟩

end EliminationOrder

/-- The factors have the keys of others, up to the sequence of the factors and that of the keys of
each. -/
def FactorGraph.IsReordered (g h : FactorGraph α) : Prop :=
  ∃ fs, g.factors.Perm fs ∧ List.Forall₂ (fun f f' => f.keys.Perm f'.keys) fs h.factors

namespace EliminationOrder

theorem adjacency_of_isReordered {g h : FactorGraph α} (hgh : g.IsReordered h) :
    adjacency h = adjacency g := by
  obtain ⟨fs, hperm, hkeys⟩ := hgh
  refine Adjacency.ext (fun k => ?_) fun k j => ?_
  · rw [(adjacency_spec h).1, (adjacency_spec g).1, ← exists_mem_iff_of_forall₂ hkeys fun hks =>
      hks.mem_iff]
    simp only [hperm.mem_iff]
  · rw [(adjacency_spec h).2, (adjacency_spec g).2,
      ← exists_mem_iff_of_forall₂ hkeys fun hks => and_congr hks.mem_iff hks.mem_iff]
    simp only [hperm.mem_iff]

/-- **The greedy order** is an order of all variables, and the loop ends by itself. Before every
step the neighbours are mutual and different and are about the variables that are left, and the
variable that is taken is the one with the fewest neighbours, of several the one with the least key.
The sequence of the factors and of their keys does not matter. -/
theorem minDegree_spec (g : FactorGraph α) :
    (minDegree g).keys.Perm g.keys.keys ∧
      ((minDegree g).validate g.keys : FactorGraph.Run α Unit).outcome = .ok () ∧
      (∀ n, (adjacency g).size ≤ n → greedy n (adjacency g) = (minDegree g).keys) ∧
      (minDegreeRun g).map GreedyStep.key = (minDegree g).keys ∧
      (∀ i t, (minDegreeRun g)[i]? = some t → t.before.IsGraph ∧
        (∀ k, k ∈ t.before.keys ↔ k ∈ (minDegree g).keys.drop i) ∧
        (∀ k j, t.before.Joins k j → j ∈ (minDegree g).keys.drop i) ∧ t.IsLeast) ∧
      ∀ h : FactorGraph α, g.IsReordered h → minDegree h = minDegree g := by
  have hperm := perm_minDegree g
  refine ⟨hperm, outcome_validate_of_perm hperm, fun n hn => greedy_of_size_le hn le_rfl,
    map_key_greedyRun _ _, fun i t ht => ?_, fun h hgh => ?_⟩
  · have hrest := isRest_before ht
    have hkeys : ∀ k, k ∈ t.before.keys ↔ k ∈ (minDegree g).keys.drop i := fun k => by
      rw [hrest.mem_keys_iff, mem_drop_iff (minDegree g).nodup]
    exact ⟨hrest.isGraph, hkeys, fun k j hkj => (hkeys j).mp (hrest.isGraph.mem_keys hkj),
      GreedyStep.isLeast_of_fewest (fewest_before ht)⟩
  · simp only [minDegree, adjacency_of_isReordered hgh]

end EliminationOrder

/-! ### A square

Four variables, each linked to the next and the last one to the first, which has a prior. -/

namespace Square

open EliminationOrder

def corner (i : UInt64) : Key := ⟨'x', i⟩

/-- Measures the step from a variable to another. -/
def link (i j : UInt64) : Factor Float :=
  .between ⟨corner i, corner j, .rn ⟨[1.0]⟩, ⟨.unit, Mat.identity 1⟩⟩

/-- Keeps the first variable at zero. -/
def anchor : Factor Float := .prior ⟨corner 1, .rn ⟨[0.0]⟩, ⟨.unit, Mat.identity 1⟩⟩

def graph : FactorGraph Float := ⟨[anchor, link 1 2, link 2 3, link 3 4, link 4 1]⟩

/-- The square, gone round the other way. -/
def reversed : FactorGraph Float := ⟨[link 1 4, link 4 3, link 3 2, link 2 1, anchor]⟩

theorem isReordered : graph.IsReordered reversed := by
  refine ⟨[link 4 1, link 3 4, link 2 3, link 1 2, anchor], (List.reverse_perm _).symm, ?_⟩
  exact .cons (.swap _ _ _)
    (.cons (.swap _ _ _) (.cons (.swap _ _ _) (.cons (.swap _ _ _) (.cons .rfl .nil))))

/-- The first variable is eliminated, which joins the second one and the fourth one. -/
theorem minDegree_spec_square :
    (minDegree graph).keys = [corner 1, corner 2, corner 3, corner 4] ∧
      (∃ t, (minDegreeRun graph)[1]? = some t ∧ t.before.IsGraph ∧ t.IsLeast ∧
        t.before.Joins (corner 2) (corner 4)) ∧ minDegree reversed = minDegree graph := by
  obtain ⟨-, -, -, -, hsteps, hreordered⟩ := minDegree_spec graph
  obtain ⟨t, ht, hjoins⟩ : ∃ t, (minDegreeRun graph)[1]? = some t ∧
      t.before.Joins (corner 2) (corner 4) :=
    ⟨_, rfl, _, rfl, by decide⟩
  obtain ⟨hgraph, -, -, hleast⟩ := hsteps 1 t ht
  exact ⟨by decide, ⟨t, ht, hgraph, hleast, hjoins⟩, hreordered reversed isReordered⟩

end Square

end Smoothing
