import Mathlib
import Smoothing.Key

/-!
# Forests of factors

Factors link keys: two keys are linked by a set of factors if one leads to the other over keys of
common factors (`Linked`). A trail is such a way, written as the list of its factors (`Trail`).

A set of factors may be chosen greedily in an order: a factor is taken exactly if the factors taken
before it link no two of its keys (`IsGreedy`). If all factors have two keys, then the factors that
are taken

* link the same keys as all factors do (`IsGreedy.linked_iff`),
* have no cycles (`IsGreedy.eq_nil_of_trail`), and
* are a forest of first factors: a factor that is not taken comes after all factors on the way
between its keys (`IsGreedy.before_of_trail`).

Both of the last two hold because the last factor of a trail was taken when its keys were not linked
(`IsGreedy.not_linked_of_last`).
-/

namespace Smoothing

variable {keysOf : ℕ → List Key} {T T' : Set ℕ} {i : ℕ} {k l m : Key}

/-- Two keys are linked by a set of factors. -/
def Linked (keysOf : ℕ → List Key) (T : Set ℕ) : Key → Key → Prop :=
  Relation.ReflTransGen fun k l => ∃ i ∈ T, k ∈ keysOf i ∧ l ∈ keysOf i

namespace Linked

theorem refl (k : Key) : Linked keysOf T k k := Relation.ReflTransGen.refl

theorem of_mem (hi : i ∈ T) (hk : k ∈ keysOf i) (hl : l ∈ keysOf i) : Linked keysOf T k l :=
  .single ⟨i, hi, hk, hl⟩

theorem trans (h : Linked keysOf T k l) (h' : Linked keysOf T l m) : Linked keysOf T k m :=
  Relation.ReflTransGen.trans h h'

theorem symm (h : Linked keysOf T k l) : Linked keysOf T l k := by
  induction h with
  | refl => exact refl k
  | tail _ hstep ih =>
    obtain ⟨i, hi, hk, hl⟩ := hstep
    exact (of_mem hi hl hk).trans ih

theorem of_forall (hT : ∀ i ∈ T, ∀ k ∈ keysOf i, ∀ l ∈ keysOf i, Linked keysOf T' k l)
    (h : Linked keysOf T k l) : Linked keysOf T' k l := by
  induction h with
  | refl => exact refl k
  | tail _ hstep ih =>
    obtain ⟨i, hi, hk, hl⟩ := hstep
    exact ih.trans (hT i hi _ hk _ hl)

theorem mono (hT : T ⊆ T') (h : Linked keysOf T k l) : Linked keysOf T' k l :=
  h.of_forall fun _ hi _ hk _ hl => of_mem (hT hi) hk hl

end Linked

theorem linked_empty : Linked keysOf ∅ k l ↔ k = l := by
  constructor
  · intro h
    induction h with
    | refl => rfl
    | tail _ hstep ih =>
      obtain ⟨i, hi, -⟩ := hstep
      exact absurd hi (Set.notMem_empty i)
  · rintro rfl
    exact .refl k

/-- **What one more factor links**: the keys that were linked to its keys before. -/
theorem linked_insert : Linked keysOf (insert i T) k l ↔
    Linked keysOf T k l ∨ (∃ a ∈ keysOf i, Linked keysOf T k a) ∧
    ∃ b ∈ keysOf i, Linked keysOf T l b := by
  constructor
  · intro h
    induction h with
    | refl => exact .inl (.refl k)
    | @tail m l _ hstep ih =>
      obtain ⟨j, hj, hm, hl⟩ := hstep
      rcases Set.mem_insert_iff.mp hj with rfl | hj
      · refine .inr ⟨?_, l, hl, .refl l⟩
        exact ih.elim (fun hkm => ⟨m, hm, hkm⟩) And.left
      · have hml := Linked.of_mem hj hm hl
        rcases ih with hkm | ⟨hk, b, hb, hmb⟩
        · exact .inl (hkm.trans hml)
        · exact .inr ⟨hk, b, hb, hml.symm.trans hmb⟩
  · rintro (h | ⟨⟨a, ha, hka⟩, b, hb, hlb⟩)
    · exact h.mono (Set.subset_insert i T)
    · have hab : Linked keysOf (insert i T) a b := .of_mem (Set.mem_insert i T) ha hb
      exact ((hka.mono (Set.subset_insert i T)).trans hab).trans
        (hlb.mono (Set.subset_insert i T)).symm

/-! ### Trails -/

/-- A way from key to key, as the list of its factors. Each factor leads to another key. -/
inductive Trail (keysOf : ℕ → List Key) (T : Set ℕ) : Key → List ℕ → Key → Prop
  | nil (k : Key) : Trail keysOf T k [] k
  | cons {k m l : Key} {i : ℕ} {is : List ℕ} (hi : i ∈ T) (hk : k ∈ keysOf i) (hm : m ∈ keysOf i)
      (hkm : k ≠ m) (rest : Trail keysOf T m is l) : Trail keysOf T k (i :: is) l

namespace Trail

variable {is js : List ℕ}

theorem mem (h : Trail keysOf T k is l) : ∀ i ∈ is, i ∈ T := by
  induction h with
  | nil => simp
  | cons hi _ _ _ _ ih => exact List.forall_mem_cons.mpr ⟨hi, ih⟩

theorem linked (h : Trail keysOf T k is l) (his : ∀ i ∈ is, i ∈ T') : Linked keysOf T' k l := by
  induction h with
  | nil k => exact .refl k
  | cons _ hk hm _ _ ih =>
    obtain ⟨hi, his⟩ := List.forall_mem_cons.mp his
    exact (Linked.of_mem hi hk hm).trans (ih his)

theorem split (h : Trail keysOf T k (is ++ i :: js) l) :
    ∃ a b, Trail keysOf T k is a ∧ a ∈ keysOf i ∧ b ∈ keysOf i ∧ a ≠ b ∧ Trail keysOf T b js l := by
  induction is generalizing k with
  | nil =>
    cases h with
    | cons _ hk hm hkm rest => exact ⟨k, _, .nil k, hk, hm, hkm, rest⟩
  | cons j is ih =>
    cases h with
    | cons hj hk hm hkm rest =>
      obtain ⟨a, b, hka, ha, hb, hab, hbl⟩ := ih rest
      exact ⟨a, b, .cons hj hk hm hkm hka, ha, hb, hab, hbl⟩

end Trail

/-- **Linked keys are the ends of a trail without repetitions.** -/
theorem Linked.exists_trail (h : Linked keysOf T k l) : ∃ is, Trail keysOf T k is l ∧ is.Nodup := by
  induction h using Relation.ReflTransGen.head_induction_on with
  | refl => exact ⟨[], .nil l, List.nodup_nil⟩
  | @head k m hstep _ ih =>
    obtain ⟨i, hi, hk, hm⟩ := hstep
    obtain ⟨is, his, hnd⟩ := ih
    by_cases hkm : k = m
    · exact ⟨is, hkm ▸ his, hnd⟩
    by_cases hmem : i ∈ is
    · -- the trail passes the factor later, so it can be cut short
      obtain ⟨pre, post, rfl⟩ := List.append_of_mem hmem
      obtain ⟨a, b, -, -, hb, -, hbl⟩ := his.split
      obtain ⟨hipost, hpost⟩ := List.nodup_cons.mp (List.nodup_append.mp hnd).2.1
      by_cases hkb : k = b
      · exact ⟨post, hkb ▸ hbl, hpost⟩
      · exact ⟨i :: post, .cons hi hk hb hkb hbl, List.nodup_cons.mpr ⟨hipost, hpost⟩⟩
    · exact ⟨i :: is, .cons hi hk hm hkm his, List.nodup_cons.mpr ⟨hmem, hnd⟩⟩

/-! ### Greedy choices -/

/-- A set `T` of factors of a set `all` that is chosen greedily in an order: a factor is taken
exactly if those taken before it link no two of its keys. -/
structure IsGreedy (keysOf : ℕ → List Key) (before : ℕ → ℕ → Prop) (all T : Set ℕ) : Prop where
  trans : ∀ i j n, before i j → before j n → before i n
  total : ∀ i ∈ all, ∀ j ∈ all, i ≠ j → before i j ∨ before j i
  subset : T ⊆ all
  apart : ∀ i ∈ T, (keysOf i).Pairwise fun k l => ¬ Linked keysOf {j ∈ T | before j i} k l
  joined : ∀ i ∈ all, i ∉ T → ¬ (keysOf i).Pairwise fun k l =>
    ¬ Linked keysOf {j ∈ T | before j i} k l

namespace IsGreedy

variable {before : ℕ → ℕ → Prop} {all : Set ℕ} (h : IsGreedy keysOf before all T)
include h

theorem exists_last {is : List ℕ} (hne : is ≠ []) (his : ∀ i ∈ is, i ∈ T) :
    ∃ n ∈ is, ∀ j ∈ is, j ≠ n → before j n := by
  induction is with
  | nil => exact absurd rfl hne
  | cons i is ih =>
    obtain ⟨hi, his⟩ := List.forall_mem_cons.mp his
    rcases eq_or_ne is [] with rfl | hne
    · exact ⟨i, List.mem_cons_self, fun j hj hji => absurd (List.mem_singleton.mp hj) hji⟩
    obtain ⟨n, hn, hlast⟩ := ih hne his
    rcases eq_or_ne i n with rfl | hin
    · exact ⟨i, List.mem_cons_self,
        fun j hj hji => hlast j ((List.mem_cons.mp hj).resolve_left hji) hji⟩
    rcases h.total i (h.subset hi) n (h.subset (his n hn)) hin with hb | hb
    · refine ⟨n, List.mem_cons_of_mem i hn, fun j hj hjn => ?_⟩
      rcases List.mem_cons.mp hj with rfl | hj
      · exact hb
      · exact hlast j hj hjn
    · refine ⟨i, List.mem_cons_self, fun j hj hji => ?_⟩
      have hj := (List.mem_cons.mp hj).resolve_left hji
      rcases eq_or_ne j n with rfl | hjn
      · exact hb
      · exact h.trans j n i (hlast j hj hjn) hb

/-- The keys of a factor with two keys that is taken are not linked by those taken before it. -/
theorem not_linked_of_mem (hi : i ∈ T) (htwo : (keysOf i).length = 2) {a b : Key}
    (ha : a ∈ keysOf i) (hb : b ∈ keysOf i) (hab : a ≠ b) :
    ¬ Linked keysOf {j ∈ T | before j i} a b := by
  obtain ⟨k, l, hkl⟩ := List.length_eq_two.mp htwo
  have hapart := h.apart i hi
  rw [hkl] at hapart ha hb
  have hnot := List.pairwise_pair.mp hapart
  rcases List.mem_pair.mp ha with rfl | rfl <;> rcases List.mem_pair.mp hb with rfl | rfl
  · exact absurd rfl hab
  · exact hnot
  · exact fun hl => hnot hl.symm
  · exact absurd rfl hab

/-- **The last factor of a trail** was taken when the ends of the trail were not linked. -/
theorem not_linked_of_last {is : List ℕ} (htrail : Trail keysOf T k is l) (hnd : is.Nodup)
    (hi : i ∈ is) (hlast : ∀ j ∈ is, j ≠ i → before j i) (htwo : (keysOf i).length = 2) :
    ¬ Linked keysOf {j ∈ T | before j i} k l := by
  intro hkl
  have hT := htrail.mem
  obtain ⟨pre, post, rfl⟩ := List.append_of_mem hi
  obtain ⟨a, b, hka, ha, hb, hab, hbl⟩ := htrail.split
  obtain ⟨-, hpost, hdisjoint⟩ := List.nodup_append.mp hnd
  have hpre : ∀ j ∈ pre, j ∈ {j ∈ T | before j i} := fun j hj =>
    ⟨hT j (by simp [hj]), hlast j (by simp [hj]) (hdisjoint j hj i List.mem_cons_self)⟩
  have hafter : ∀ j ∈ post, j ∈ {j ∈ T | before j i} := fun j hj =>
    ⟨hT j (by simp [hj]), hlast j (by simp [hj]) fun hji => (List.nodup_cons.mp hpost).1 (hji ▸ hj)⟩
  exact h.not_linked_of_mem (hT i hi) htwo ha hb hab
    (((hka.linked hpre).symm.trans hkl).trans (hbl.linked hafter).symm)

variable (htwo : ∀ i ∈ all, (keysOf i).length = 2)
include htwo

/-- The keys of a factor that is not taken are linked by those taken before it. -/
theorem linked_of_not_mem (hi : i ∈ all) (hiT : i ∉ T) (hk : k ∈ keysOf i) (hl : l ∈ keysOf i) :
    Linked keysOf {j ∈ T | before j i} k l := by
  obtain ⟨a, b, hab⟩ := List.length_eq_two.mp (htwo i hi)
  have hjoined := h.joined i hi hiT
  rw [hab] at hjoined hk hl
  have hlinked := not_not.mp (fun hnot => hjoined (List.pairwise_pair.mpr hnot))
  rcases List.mem_pair.mp hk with rfl | rfl <;> rcases List.mem_pair.mp hl with rfl | rfl
  · exact .refl _
  · exact hlinked
  · exact hlinked.symm
  · exact .refl _

/-- **The factors that are taken link the same keys as all factors.** -/
theorem linked_iff : Linked keysOf T k l ↔ Linked keysOf all k l := by
  refine ⟨Linked.mono h.subset, Linked.of_forall fun i hi k hk l hl => ?_⟩
  by_cases hiT : i ∈ T
  · exact .of_mem hiT hk hl
  · exact (h.linked_of_not_mem htwo hi hiT hk hl).mono (Set.sep_subset T _)

/-- **The factors that are taken have no cycles.** -/
theorem eq_nil_of_trail {is : List ℕ} (htrail : Trail keysOf T k is k) (hnd : is.Nodup) :
    is = [] := by
  by_contra hne
  obtain ⟨n, hn, hlast⟩ := h.exists_last hne htrail.mem
  exact h.not_linked_of_last htrail hnd hn hlast (htwo n (h.subset (htrail.mem n hn))) (.refl k)

/-- **A factor that is not taken comes after the factors on the way between its keys.** -/
theorem before_of_trail (hi : i ∈ all) (hiT : i ∉ T) (hk : k ∈ keysOf i) (hl : l ∈ keysOf i)
    {is : List ℕ} (htrail : Trail keysOf T k is l) (hnd : is.Nodup) : ∀ j ∈ is, before j i := by
  intro j hj
  obtain ⟨n, hn, hlast⟩ := h.exists_last (List.ne_nil_of_mem hj) htrail.mem
  have hnT := htrail.mem n hn
  have hni : n ≠ i := fun hni => hiT (hni ▸ hnT)
  rcases h.total n (h.subset hnT) i hi hni with hb | hb
  · rcases eq_or_ne j n with rfl | hjn
    · exact hb
    · exact h.trans j n i (hlast j hj hjn) hb
  · -- the last factor would be taken after the keys of the other one were linked
    have hsub : {j ∈ T | before j i} ⊆ {j ∈ T | before j n} :=
      fun m hm => ⟨hm.1, h.trans m i n hm.2 hb⟩
    exact absurd ((h.linked_of_not_mem htwo hi hiT hk hl).mono hsub)
      (h.not_linked_of_last htrail hnd hn hlast (htwo n (h.subset hnT)))

end IsGreedy

end Smoothing
