import Mathlib
import Smoothing.DisjointSets
import Smoothing.Proofs.BlockVector

/-!
# Disjoint sets

Walking from parent to parent leads from every number to the root of its set (`Leads`). Ranks grow
along the way (`Ranked`), so there are no cycles and as many steps as there are numbers are enough.

* Walking to a root halves the path behind it, which keeps the root of every number
(`Ranked.leads_halve`).
* Pointing a root at another one joins their sets and no others (`Leads.link`), and this is all that
joining two sets does (`Links`, `Sound.union_cases`).

For keys this says what the operations do to the partition `Together`: looking up keys keeps it
(`Found`), the roots that are found differ exactly if the keys are pairwise not together
(`nodup_iff_pairwise`), and joining neighbours in the list of roots joins the sets of all its keys
(`together_unionAll`).
-/

open Finset

namespace Smoothing.DisjointSets

/-! ### Parents -/

/-- Walking from parent to parent leads from a number to a root. -/
inductive Leads (f : ℕ → ℕ) : ℕ → ℕ → Prop
  | root {r : ℕ} (h : f r = r) : Leads f r r
  | step {i r : ℕ} (h : Leads f (f i) r) : Leads f i r

namespace Leads

variable {f : ℕ → ℕ} {i j r s : ℕ}

theorem isRoot (h : Leads f i r) : f r = r := by
  induction h with
  | root h => exact h
  | step _ ih => exact ih

theorem of_step (h : Leads f i r) : Leads f (f i) r := by
  cases h with
  | root h => exact h.symm ▸ .root h
  | step h => exact h

theorem eq_of_root (h : Leads f i r) (hi : f i = i) : r = i := by
  induction h with
  | root => rfl
  | step _ ih =>
    rw [hi] at ih
    exact ih hi

theorem unique (h : Leads f i r) (h' : Leads f i s) : r = s := by
  induction h with
  | root h => exact (h'.eq_of_root h).symm
  | step _ ih => exact ih h'.of_step

end Leads

/-- Parents are among the first `n` numbers and have larger ranks. -/
structure Ranked (n : ℕ) (rank f : ℕ → ℕ) : Prop where
  lt : ∀ i, f i ≠ i → f i < n
  rank_lt : ∀ i, f i ≠ i → rank i < rank (f i)

namespace Ranked

variable {n : ℕ} {rank f : ℕ → ℕ} (h : Ranked n rank f) {i : ℕ}
include h

theorem rank_le (i : ℕ) : rank i ≤ rank (f i) := by
  by_cases hi : f i = i
  · rw [hi]
  · exact (h.rank_lt i hi).le

theorem rank_lt_grandparent (hi : f i ≠ i) : rank i < rank (f (f i)) :=
  (h.rank_lt i hi).trans_le (h.rank_le (f i))

/-- **Pointing a number past its parent keeps the roots.** -/
theorem leads_halve (hi : f i ≠ i) {j r : ℕ} :
    Leads (Function.update f i (f (f i))) j r ↔ Leads f j r := by
  set f' := Function.update f i (f (f i)) with hf'
  have hself : f' i = f (f i) := Function.update_self ..
  have hother : ∀ {j}, j ≠ i → f' j = f j := fun hj => Function.update_of_ne hj ..
  constructor
  · intro hl
    induction hl with
    | @root r hr =>
      by_cases hri : r = i
      · subst hri
        have hlt := h.rank_lt_grandparent hi
        rw [hself] at hr
        rw [hr] at hlt
        exact absurd hlt (lt_irrefl _)
      · exact .root ((hother hri).symm.trans hr)
    | @step j r _ ih =>
      by_cases hj : j = i
      · subst hj
        rw [hself] at ih
        exact .step (.step ih)
      · rw [hother hj] at ih
        exact .step ih
  · intro hl
    induction hl with
    | @root r hr =>
      have hri : r ≠ i := fun hri => hi (hri ▸ hr)
      exact .root ((hother hri).trans hr)
    | @step j r _ ih =>
      by_cases hj : j = i
      · -- the parent is another number, so it still points where `j` points now
        subst hj
        refine .step ?_
        rw [hself, ← hother hi]
        exact ih.of_step
      · refine .step ?_
        rwa [hother hj]

/-- A number may point at any number of larger rank. -/
theorem update {a b : ℕ} (hb : b < n) (hab : rank a < rank b) :
    Ranked n rank (Function.update f a b) := by
  refine ⟨fun j hj => ?_, fun j hj => ?_⟩
  · by_cases hja : j = a
    · subst hja
      rwa [Function.update_self]
    · rw [Function.update_of_ne hja] at hj ⊢
      exact h.lt j hj
  · by_cases hja : j = a
    · subst hja
      rwa [Function.update_self]
    · rw [Function.update_of_ne hja] at hj ⊢
      exact h.rank_lt j hj

theorem halve (hi : f i ≠ i) : Ranked n rank (Function.update f i (f (f i))) := by
  refine h.update ?_ (h.rank_lt_grandparent hi)
  by_cases hp : f (f i) = f i
  · rw [hp]
    exact h.lt i hi
  · exact h.lt (f i) hp

theorem raise {a m : ℕ} (ha : f a = a) (hm : rank a ≤ m) :
    Ranked n (Function.update rank a m) f := by
  refine ⟨h.lt, fun j hj => ?_⟩
  have hja : j ≠ a := fun hja => hj (hja ▸ ha)
  rw [Function.update_of_ne hja]
  refine (h.rank_lt j hj).trans_le ?_
  by_cases hfa : f j = a
  · rw [hfa, Function.update_self]
    exact hm
  · rw [Function.update_of_ne hfa]

end Ranked

/-- **Pointing a root at another root** leads the numbers of its set to that one, and all others
where they were. -/
theorem Leads.link {f : ℕ → ℕ} {a b : ℕ} (ha : f a = a) (hb : f b = b) (hab : a ≠ b) {j r : ℕ}
    (h : Leads f j r) : Leads (Function.update f a b) j (if r = a then b else r) := by
  have hself : Function.update f a b a = b := Function.update_self ..
  have hother : ∀ {j}, j ≠ a → Function.update f a b j = f j :=
    fun hj => Function.update_of_ne hj ..
  have hroot : Leads (Function.update f a b) b b := .root ((hother hab.symm).trans hb)
  induction h with
  | @root r hr =>
    split_ifs with hra
    · subst hra
      refine .step ?_
      rwa [hself]
    · exact .root ((hother hra).trans hr)
  | @step j r _ ih =>
    by_cases hja : j = a
    · subst hja
      rwa [ha] at ih
    · refine .step ?_
      rwa [hother hja]

/-! ### Walking to a root -/

theorem parentOf_set {parent : Array ℕ} {i : ℕ} (hi : i < parent.size) (p : ℕ) :
    parentOf (parent.setIfInBounds i p) = Function.update (parentOf parent) i p := by
  funext j
  by_cases hj : j = i
  · subst hj
    rw [Function.update_self]
    simp [parentOf, hi]
  · rw [Function.update_of_ne hj]
    simp [parentOf, Ne.symm hj]

theorem parentOf_push (parent : Array ℕ) :
    parentOf (parent.push parent.size) = parentOf parent := by
  funext j
  by_cases hj : j = parent.size
  · simp [parentOf, hj]
  · simp [parentOf, Array.getElem?_push, hj]

theorem getD_push_zero (rank : Array ℕ) : ((rank.push 0).getD · 0) = (rank.getD · 0) := by
  funext j
  by_cases hj : j = rank.size
  · simp [hj]
  · simp [Array.getElem?_push, hj]

theorem lt_size_of_parentOf_ne {parent : Array ℕ} {i : ℕ} (hi : parentOf parent i ≠ i) :
    i < parent.size := by
  by_contra hge
  exact hi (by simp [parentOf, not_lt.mp hge])

/-- The same roots, found along other paths. -/
structure SameRoots (rank : ℕ → ℕ) (parent parent' : Array ℕ) : Prop where
  size : parent'.size = parent.size
  ranked : Ranked parent'.size rank (parentOf parent')
  leads : ∀ j r, Leads (parentOf parent') j r ↔ Leads (parentOf parent) j r

/-- The numbers below `n` that have larger ranks than a number. -/
def above (n : ℕ) (rank : ℕ → ℕ) (i : ℕ) : Finset ℕ := (range n).filter (rank i < rank ·)

theorem card_above_le (n : ℕ) (rank : ℕ → ℕ) (i : ℕ) : (above n rank i).card ≤ n :=
  (card_filter_le _ _).trans_eq (card_range n)

theorem Ranked.card_above_lt {n : ℕ} {rank f : ℕ → ℕ} (h : Ranked n rank f) {i : ℕ} (hi : f i ≠ i) :
    (above n rank (f (f i))).card < (above n rank i).card := by
  refine card_lt_card ((ssubset_iff_of_subset fun j hj => ?_).mpr ⟨f i, ?_, fun hp => ?_⟩)
  · obtain ⟨hj, hlt⟩ := mem_filter.mp hj
    exact mem_filter.mpr ⟨hj, (h.rank_lt_grandparent hi).trans hlt⟩
  · exact mem_filter.mpr ⟨mem_range.mpr (h.lt i hi), h.rank_lt i hi⟩
  · exact absurd (mem_filter.mp hp).2 (not_lt.mpr (h.rank_le _))

/-- **Walking finds the root** if there are as many steps as numbers of larger rank, and it keeps
all roots. -/
theorem walk_spec {rank : ℕ → ℕ} {fuel : ℕ} {parent : Array ℕ} {i : ℕ}
    (h : Ranked parent.size rank (parentOf parent))
    (hfuel : (above parent.size rank i).card ≤ fuel) :
    SameRoots rank parent (walk fuel parent i).1 ∧
      Leads (parentOf parent) i (walk fuel parent i).2 := by
  induction fuel generalizing parent i with
  | zero =>
    refine ⟨⟨rfl, h, fun _ _ => Iff.rfl⟩, .root ?_⟩
    by_contra hi
    have hmem : parentOf parent i ∈ above parent.size rank i :=
      mem_filter.mpr ⟨mem_range.mpr (h.lt i hi), h.rank_lt i hi⟩
    exact absurd (card_pos.mpr ⟨_, hmem⟩) (not_lt.mpr hfuel)
  | succ fuel ih =>
    rw [walk]
    by_cases hi : parentOf parent i = i
    · rw [if_pos hi]
      exact ⟨⟨rfl, h, fun _ _ => Iff.rfl⟩, .root hi⟩
    · rw [if_neg hi]
      set g := parentOf parent (parentOf parent i) with hg
      have hset := parentOf_set (lt_size_of_parentOf_ne hi) g
      have hsize : (parent.setIfInBounds i g).size = parent.size := Array.size_setIfInBounds
      have hranked : Ranked (parent.setIfInBounds i g).size rank
          (parentOf (parent.setIfInBounds i g)) := by
        rw [hsize, hset]
        exact h.halve hi
      obtain ⟨hroots, hlead⟩ := ih hranked (by
        rw [hsize]
        exact Nat.le_of_lt_succ ((h.card_above_lt hi).trans_le hfuel))
      have hleads : ∀ j r, Leads (parentOf (parent.setIfInBounds i g)) j r ↔
          Leads (parentOf parent) j r := fun j r => by
        rw [hset]
        exact h.leads_halve hi
      exact ⟨⟨hroots.size.trans hsize, hroots.ranked,
        fun j r => (hroots.leads j r).trans (hleads j r)⟩, .step (.step ((hleads _ _).mp hlead))⟩

/-! ### Sets of numbers -/

theorem Ranked.leads_lt {n : ℕ} {rank f : ℕ → ℕ} (h : Ranked n rank f) {i r : ℕ} (hl : Leads f i r)
    (hi : i < n) : r < n := by
  induction hl with
  | root _ => exact hi
  | @step i r _ ih =>
    by_cases hp : f i = i
    · exact ih (by rwa [hp])
    · exact ih (h.lt i hp)

/-- Two numbers have the same root. -/
def SameRoot (f : ℕ → ℕ) (i j : ℕ) : Prop := ∃ r, Leads f i r ∧ Leads f j r

section SameRoot
variable {f : ℕ → ℕ} {i j l r s : ℕ}

theorem sameRoot_iff (hi : Leads f i r) (hj : Leads f j s) : SameRoot f i j ↔ r = s := by
  constructor
  · rintro ⟨t, hit, hjt⟩
    exact (hi.unique hit).trans (hjt.unique hj)
  · rintro rfl
    exact ⟨r, hi, hj⟩

theorem SameRoot.symm (h : SameRoot f i j) : SameRoot f j i := h.imp fun _ => And.symm

theorem SameRoot.trans (h : SameRoot f i j) (h' : SameRoot f j l) : SameRoot f i l := by
  obtain ⟨r, hi, hj⟩ := h
  obtain ⟨s, hj', hl⟩ := h'
  exact ⟨r, hi, (hj.unique hj') ▸ hl⟩

theorem Leads.sameRoot (h : Leads f i r) : SameRoot f i r := ⟨r, h, .root h.isRoot⟩

theorem sameRoot_update {a b : ℕ} (ha : f a = a) (hb : f b = b) (hab : a ≠ b) (hi : Leads f i r)
    (hj : Leads f j s) :
    SameRoot (Function.update f a b) i j ↔ r = s ∨ (r = a ∨ r = b) ∧ (s = a ∨ s = b) := by
  rw [sameRoot_iff (hi.link ha hb hab) (hj.link ha hb hab)]
  split_ifs with hr hs hs <;> grind

end SameRoot

/-- Ranks and parents of a partition fit together, and the numbers of the keys are in range. -/
structure Sound (s : DisjointSets) : Prop where
  ranks : s.rank.size = s.parent.size
  ranked : Ranked s.parent.size (s.rank.getD · 0) (parentOf s.parent)
  index_lt : ∀ k i, s.index.get? k = some i → i < s.parent.size

/-- Two numbers are in the same set. -/
def Same (s : DisjointSets) (i j : ℕ) : Prop := SameRoot (parentOf s.parent) i j

theorem sound_empty : Sound empty :=
  ⟨rfl, ⟨fun _ hi => absurd rfl hi, fun _ hi => absurd rfl hi⟩, fun _ _ hi => by cases hi⟩

/-- The sets of some numbers are joined, and the others are kept. -/
structure Merges (s s' : DisjointSets) (as : List ℕ) : Prop where
  sound : Sound s'
  index : s'.index = s.index
  size : s'.parent.size = s.parent.size
  same : ∀ i j, Same s' i j ↔ Same s i j ∨ (∃ a ∈ as, Same s i a) ∧ ∃ b ∈ as, Same s j b

/-- All sets are kept, with their roots. -/
structure Keeps (s s' : DisjointSets) : Prop where
  sound : Sound s'
  index : s'.index = s.index
  size : s'.parent.size = s.parent.size
  leads : ∀ j r, Leads (parentOf s'.parent) j r ↔ Leads (parentOf s.parent) j r

theorem Keeps.same {s s' : DisjointSets} (h : Keeps s s') (i j : ℕ) : Same s' i j ↔ Same s i j := by
  simp only [Same, SameRoot, h.leads]

theorem Keeps.trans {s s' s'' : DisjointSets} (h : Keeps s s') (h' : Keeps s' s'') : Keeps s s'' :=
  ⟨h'.sound, h'.index.trans h.index, h'.size.trans h.size,
    fun j r => (h'.leads j r).trans (h.leads j r)⟩

theorem Leads.same_iff {s : DisjointSets} {i j r : ℕ} (h : Leads (parentOf s.parent) j r) :
    Same s i r ↔ Same s i j :=
  ⟨fun hi => hi.trans h.sameRoot.symm, fun hi => hi.trans h.sameRoot⟩

namespace Sound

variable {s : DisjointSets} (h : Sound s)
include h

theorem root_spec (i : ℕ) : Keeps s (s.root i).1 ∧ Leads (parentOf s.parent) i (s.root i).2 := by
  obtain ⟨hroots, hlead⟩ := walk_spec h.ranked (card_above_le _ _ i)
  exact ⟨⟨⟨h.ranks.trans hroots.size.symm, hroots.ranked,
    fun k j hj => hroots.size ▸ h.index_lt k j hj⟩, rfl, hroots.size, hroots.leads⟩, hlead⟩

theorem exists_leads (i : ℕ) : ∃ r, Leads (parentOf s.parent) i r := ⟨_, (h.root_spec i).2⟩

theorem same_refl (i : ℕ) : Same s i i := by
  obtain ⟨r, hr⟩ := h.exists_leads i
  exact ⟨r, hr, hr⟩

end Sound

theorem Merges.swap {s s' : DisjointSets} {a b : ℕ} (h : Merges s s' [a, b]) :
    Merges s s' [b, a] := by
  refine ⟨h.sound, h.index, h.size, fun i j => ?_⟩
  have hmem : ∀ c, c ∈ [a, b] ↔ c ∈ [b, a] := fun c => (List.Perm.swap b a []).mem_iff
  simp only [h.same, hmem]

/-- A root was put below another one. The root that stays has a larger rank then, which takes no
more than the members of both allow for. -/
structure Links (s s' : DisjointSets) (a b : ℕ) : Prop where
  ne : a ≠ b
  isRoot_left : parentOf s.parent a = a
  isRoot_right : parentOf s.parent b = b
  lt_left : a < s.parent.size
  lt_right : b < s.parent.size
  index : s'.index = s.index
  parent : s'.parent = s.parent.setIfInBounds a b
  rank_size : s'.rank.size = s.rank.size
  rank_of_ne : ∀ r, r ≠ b → s'.rank.getD r 0 = s.rank.getD r 0
  rank_le : s.rank.getD b 0 ≤ s'.rank.getD b 0
  rank_lt : s.rank.getD a 0 < s'.rank.getD b 0
  pow_rank_le : 2 ^ s'.rank.getD b 0 ≤ 2 ^ s.rank.getD a 0 + 2 ^ s.rank.getD b 0

namespace Links

variable {s s' : DisjointSets} {a b : ℕ} (h : Links s s' a b)
include h

theorem size : s'.parent.size = s.parent.size := by
  rw [h.parent, Array.size_setIfInBounds]

theorem parentOf_eq : parentOf s'.parent = Function.update (parentOf s.parent) a b := by
  rw [h.parent, parentOf_set h.lt_left]

theorem sound (hs : Sound s) : Sound s' := by
  have hrank : (s'.rank.getD · 0) = Function.update (s.rank.getD · 0) b (s'.rank.getD b 0) := by
    funext r
    by_cases hr : r = b
    · rw [hr, Function.update_self]
    · rw [Function.update_of_ne hr, h.rank_of_ne r hr]
  refine ⟨?_, ?_, ?_⟩
  · rw [h.rank_size, hs.ranks, h.size]
  · rw [h.size, h.parentOf_eq]
    refine Ranked.update ?_ h.lt_right ?_
    · rw [hrank]
      exact hs.ranked.raise h.isRoot_right h.rank_le
    · rw [h.rank_of_ne a h.ne]
      exact h.rank_lt
  · rw [h.index, h.size]
    exact hs.index_lt

/-- **Putting a root below another one** joins their sets. -/
theorem merges (hs : Sound s) : Merges s s' [a, b] := by
  refine ⟨h.sound hs, h.index, h.size, fun i j => ?_⟩
  obtain ⟨r, hr⟩ := hs.exists_leads i
  obtain ⟨t, ht⟩ := hs.exists_leads j
  have hsame : ∀ {l u}, Leads (parentOf s.parent) l u → ∀ c, parentOf s.parent c = c →
      (Same s l c ↔ u = c) :=
    fun hl c hc => sameRoot_iff hl (.root hc)
  rw [Same, h.parentOf_eq, sameRoot_update h.isRoot_left h.isRoot_right h.ne hr ht]
  simp only [List.mem_cons, List.not_mem_nil, or_false, exists_eq_or_imp, exists_eq_left,
    hsame hr a h.isRoot_left, hsame hr b h.isRoot_right, hsame ht a h.isRoot_left,
    hsame ht b h.isRoot_right]
  rw [Same, sameRoot_iff hr ht]

end Links

/-- Which of two roots is put below the other one. -/
theorem Sound.links_or {s : DisjointSets} (h : Sound s) {a b : ℕ} (ha : parentOf s.parent a = a)
    (hb : parentOf s.parent b = b) (hal : a < s.parent.size) (hbl : b < s.parent.size) (hab : a ≠ b)
    {s' : DisjointSets} (hs' : s' = if s.rank.getD a 0 < s.rank.getD b 0 then
      { s with parent := s.parent.setIfInBounds a b }
      else if s.rank.getD b 0 < s.rank.getD a 0 then { s with parent := s.parent.setIfInBounds b a }
      else { s with
        parent := s.parent.setIfInBounds b a
        rank := s.rank.setIfInBounds a (s.rank.getD a 0 + 1) }) : Links s s' a b ∨
            Links s s' b a := by
  split_ifs at hs' with hlt hgt <;> subst hs'
  · exact .inl ⟨hab, ha, hb, hal, hbl, rfl, rfl, rfl, fun _ _ => rfl, le_rfl, hlt,
      Nat.le_add_left _ _⟩
  · exact .inr ⟨hab.symm, hb, ha, hbl, hal, rfl, rfl, rfl, fun _ _ => rfl, le_rfl, hgt,
      Nat.le_add_left _ _⟩
  · -- equal ranks: the root that stays is counted with the one below it
    have heq : s.rank.getD b 0 = s.rank.getD a 0 := by omega
    have hself : (s.rank.setIfInBounds a (s.rank.getD a 0 + 1)).getD a 0 = s.rank.getD a 0 + 1 := by
      simp [h.ranks, hal]
    refine .inr ⟨hab.symm, hb, ha, hbl, hal, rfl, rfl, Array.size_setIfInBounds,
      fun r hr => by simp [Ne.symm hr], ?_, ?_, ?_⟩
    · rw [hself]
      exact Nat.le_succ _
    · rw [hself, heq]
      exact Nat.lt_succ_self _
    · rw [hself, heq, pow_succ, Nat.mul_two]

section Union
variable {s : DisjointSets} (h : Sound s)
include h

/-- **What joining the sets of two numbers does**: it walks to their roots and puts one of them
below the other, unless they are the same. -/
theorem Sound.union_cases {a b : ℕ} (hal : a < s.parent.size) (hbl : b < s.parent.size) :
    ∃ s₂ ra rb, Keeps s s₂ ∧ s₂.rank = s.rank ∧ Leads (parentOf s.parent) a ra ∧
    Leads (parentOf s.parent) b rb ∧
    (ra = rb ∧ s.union a b = s₂ ∨ Links s₂ (s.union a b) ra rb ∨ Links s₂ (s.union a b) rb ra) := by
  obtain ⟨hka, hla⟩ := h.root_spec a
  obtain ⟨hkb, hlb⟩ := hka.sound.root_spec b
  have hk := hka.trans hkb
  rw [hka.leads] at hlb
  refine ⟨_, _, _, hk, rfl, hla, hlb, ?_⟩
  rw [union]
  dsimp only
  by_cases hab : (s.root a).2 = ((s.root a).1.root b).2
  · rw [if_pos hab]
    exact .inl ⟨hab, rfl⟩
  · rw [if_neg hab]
    exact .inr (hk.sound.links_or ((hk.leads _ _).mpr hla).isRoot ((hk.leads _ _).mpr hlb).isRoot
      (hk.size ▸ h.ranked.leads_lt hla hal) (hk.size ▸ h.ranked.leads_lt hlb hbl) hab rfl)

theorem Sound.union_spec {a b : ℕ} (hal : a < s.parent.size) (hbl : b < s.parent.size) :
    Merges s (s.union a b) [a, b] := by
  obtain ⟨s₂, ra, rb, hk, -, hla, hlb, ⟨rfl, hu⟩ | hlinks⟩ := h.union_cases hal hbl
  · have hsame : Same s a b := ⟨ra, hla, hlb⟩
    rw [hu]
    refine ⟨hk.sound, hk.index, hk.size, fun i j => ?_⟩
    have hmem : ∀ c, (∃ d ∈ [a, b], Same s c d) → Same s c b := by
      simp only [List.mem_cons, List.not_mem_nil, or_false, exists_eq_or_imp, exists_eq_left]
      rintro c (hc | hc)
      · exact hc.trans hsame
      · exact hc
    rw [hk.same]
    exact ⟨.inl, fun hij => hij.elim id fun ⟨hi, hj⟩ => (hmem i hi).trans (hmem j hj).symm⟩
  · have hm : Merges s₂ (s.union a b) [ra, rb] :=
      hlinks.elim (·.merges hk.sound) fun hl => (hl.merges hk.sound).swap
    refine ⟨hm.sound, hm.index.trans hk.index, hm.size.trans hk.size, fun i j => ?_⟩
    rw [hm.same]
    simp only [hk.same, List.mem_cons, List.not_mem_nil, or_false, exists_eq_or_imp, exists_eq_left,
      hla.same_iff, hlb.same_iff]

theorem Sound.merges_cons {s' s'' : DisjointSets} {a b : ℕ} {rest : List ℕ}
    (hab : Merges s s' [a, b]) (hrest : Merges s' s'' (b :: rest)) :
    Merges s s'' (a :: b :: rest) := by
  refine ⟨hrest.sound, hrest.index.trans hab.index, hrest.size.trans hab.size, fun i j => ?_⟩
  have hpair : ∀ l, (∃ c ∈ [a, b], Same s l c) →
      ∃ c ∈ a :: b :: rest, Same s l c := fun l ⟨c, hc, hl⟩ =>
    ⟨c, List.mem_append_left rest hc, hl⟩
  have hmem : ∀ l, (∃ c ∈ b :: rest, Same s' l c) ↔ ∃ c ∈ a :: b :: rest, Same s l c := by
    intro l
    constructor
    · rintro ⟨c, hc, hl⟩
      rcases (hab.same l c).mp hl with hl | ⟨hl, -⟩
      · exact ⟨c, List.mem_cons_of_mem _ hc, hl⟩
      · exact hpair l hl
    · rintro ⟨c, hc, hl⟩
      rcases List.mem_cons.mp hc with rfl | hc
      · exact ⟨b, List.mem_cons_self,
          (hab.same l b).mpr (.inr ⟨⟨c, by simp, hl⟩, b, by simp, h.same_refl b⟩)⟩
      · exact ⟨c, hc, (hab.same l c).mpr (.inl hl)⟩
  rw [hrest.same, hab.same, hmem, hmem, or_assoc]
  exact or_congr_right (or_iff_right_of_imp fun hij => ⟨hpair i hij.1, hpair j hij.2⟩)

/-- **Joining neighbours in a list of numbers joins the sets of all of them.** -/
theorem Sound.unionAll_spec {as : List ℕ} (has : ∀ a ∈ as, a < s.parent.size) :
    Merges s (s.unionAll as) as := by
  induction as generalizing s with
  | nil => exact ⟨h, rfl, rfl, fun i j => by simp [unionAll]⟩
  | cons a as ih =>
    cases as with
    | nil =>
      refine ⟨h, rfl, rfl, fun i j => ?_⟩
      rw [unionAll.eq_2 _ _ (by simp)]
      simp only [List.mem_singleton, exists_eq_left]
      exact ⟨.inl, fun hij => hij.elim id fun ⟨hi, hj⟩ => hi.trans hj.symm⟩
    | cons b rest =>
      obtain ⟨hal, has⟩ := List.forall_mem_cons.mp has
      have hab := h.union_spec hal (has b List.mem_cons_self)
      have hrest := ih hab.sound fun c hc => hab.size ▸ has c hc
      rw [unionAll]
      exact h.merges_cons hab hrest

end Union

/-! ### Sets of keys -/

/-- The root of a key that has a number. -/
def RootOf (s : DisjointSets) (k : Key) (r : ℕ) : Prop :=
  ∃ i, s.index.get? k = some i ∧ Leads (parentOf s.parent) i r

/-- Two keys are in the same set. A key without a number is in a set of its own. -/
def Together (s : DisjointSets) (k l : Key) : Prop :=
  k = l ∨ ∃ i j, s.index.get? k = some i ∧ s.index.get? l = some j ∧ Same s i j

theorem together_empty {k l : Key} : Together empty k l ↔ k = l := by
  refine or_iff_left ?_
  rintro ⟨i, -, hi, -⟩
  cases hi

theorem RootOf.together_iff {s : DisjointSets} {k l : Key} {r t : ℕ} (hk : RootOf s k r)
    (hl : RootOf s l t) : Together s k l ↔ r = t := by
  obtain ⟨i, hi, hir⟩ := hk
  obtain ⟨j, hj, hjt⟩ := hl
  constructor
  · rintro (rfl | ⟨i', j', hi', hj', hsame⟩)
    · obtain rfl : i = j := Option.some.inj (hi.symm.trans hj)
      exact hir.unique hjt
    · obtain rfl : i = i' := Option.some.inj (hi.symm.trans hi')
      obtain rfl : j = j' := Option.some.inj (hj.symm.trans hj')
      exact (sameRoot_iff hir hjt).mp hsame
  · rintro rfl
    exact .inr ⟨i, j, hi, hj, r, hir, hjt⟩

/-- Keys were looked up: some have numbers now, and all sets are as before. -/
structure Found (s s' : DisjointSets) : Prop where
  sound : Sound s'
  rootOf : ∀ l r, RootOf s l r → RootOf s' l r
  together : ∀ k l, Together s' k l ↔ Together s k l

theorem Found.trans {s s' s'' : DisjointSets} (h : Found s s') (h' : Found s' s'') : Found s s'' :=
  ⟨h'.sound, fun l r hl => h'.rootOf l r (h.rootOf l r hl),
    fun k l => (h'.together k l).trans (h.together k l)⟩

theorem Keeps.found {s s' : DisjointSets} (h : Keeps s s') : Found s s' := by
  refine ⟨h.sound, fun l r => ?_, fun k l => ?_⟩
  · simp only [RootOf, h.index, h.leads]
    exact id
  · simp only [Together, h.index, h.same]

section Find
variable {s : DisjointSets} (h : Sound s)
include h

theorem Sound.found_insert {k : Key} (hk : s.index.get? k = none) :
    Found s ⟨s.index.insert k s.parent.size, s.parent.push s.parent.size, s.rank.push 0⟩ := by
  set n := s.parent.size with hn
  have hparent : parentOf (s.parent.push n) = parentOf s.parent := parentOf_push s.parent
  have hother : ∀ {l}, l ≠ k → (s.index.insert k n).get? l = s.index.get? l :=
    fun hl => KeyMap.get?_insert_of_ne _ _ hl
  have hself : (s.index.insert k n).get? k = some n := KeyMap.get?_insert_self ..
  have hroot : parentOf s.parent n = n := by simp [parentOf, hn]
  -- the new number is its own root, and the roots of the others are old
  have hnew : ∀ l j, s.index.get? l = some j → ¬ Same s n j := by
    rintro l j hj ⟨r, hnr, hjr⟩
    obtain rfl := hnr.eq_of_root hroot
    exact absurd (h.ranked.leads_lt hjr (h.index_lt l j hj)) (lt_irrefl _)
  refine ⟨⟨?_, ?_, fun l j hl => ?_⟩, fun l r ⟨i, hi, hr⟩ => ?_,
    fun l m => or_congr_right' fun hlm => ?_⟩
  · rw [Array.size_push, Array.size_push, h.ranks]
  · rw [Array.size_push, hparent, getD_push_zero]
    exact ⟨fun i hi => Nat.lt_succ_of_lt (h.ranked.lt i hi), h.ranked.rank_lt⟩
  · rw [Array.size_push]
    by_cases hlk : l = k
    · subst hlk
      obtain rfl := Option.some.inj (hself.symm.trans hl)
      exact Nat.lt_succ_self _
    · rw [hother hlk] at hl
      exact Nat.lt_succ_of_lt (h.index_lt l j hl)
  · have hlk : l ≠ k := by
      rintro rfl
      rw [hk] at hi
      cases hi
    refine ⟨i, (hother hlk).trans hi, ?_⟩
    rwa [hparent]
  · simp only [Same, hparent]
    constructor
    · rintro ⟨i, j, hi, hj, hij⟩
      by_cases hlk : l = k
      · subst hlk
        rw [hself, Option.some.injEq] at hi
        subst hi
        exact absurd hij (hnew m j ((hother (Ne.symm hlm)).symm.trans hj))
      by_cases hmk : m = k
      · subst hmk
        rw [hself, Option.some.injEq] at hj
        subst hj
        exact absurd hij.symm (hnew l i ((hother hlm).symm.trans hi))
      · exact ⟨i, j, (hother hlk).symm.trans hi, (hother hmk).symm.trans hj, hij⟩
    · rintro ⟨i, j, hi, hj, hij⟩
      have hne : ∀ {l i}, s.index.get? l = some i → l ≠ k := by
        rintro l i hl rfl
        rw [hk] at hl
        cases hl
      exact ⟨i, j, (hother (hne hi)).trans hi, (hother (hne hj)).trans hj, hij⟩

theorem Sound.find_spec (k : Key) : Found s (s.find k).1 ∧ RootOf (s.find k).1 k (s.find k).2 := by
  rw [find]
  cases hk : s.index.get? k with
  | some i =>
    obtain ⟨hkeeps, hlead⟩ := h.root_spec i
    exact ⟨hkeeps.found, i, hkeeps.index ▸ hk, (hkeeps.leads _ _).mpr hlead⟩
  | none =>
    have hinsert := h.found_insert hk
    obtain ⟨hkeeps, hlead⟩ := hinsert.sound.root_spec s.parent.size
    exact ⟨hinsert.trans hkeeps.found, s.parent.size, hkeeps.index ▸ KeyMap.get?_insert_self ..,
      (hkeeps.leads _ _).mpr hlead⟩

/-- **Looking up keys** finds their roots and keeps all sets. -/
theorem Sound.findAll_spec (ks : List Key) :
    Found s (s.findAll ks).1 ∧ List.Forall₂ (RootOf (s.findAll ks).1) ks (s.findAll ks).2 := by
  induction ks generalizing s with
  | nil => exact ⟨⟨h, fun _ _ => id, fun _ _ => Iff.rfl⟩, .nil⟩
  | cons k ks ih =>
    obtain ⟨hfirst, hroot⟩ := h.find_spec k
    obtain ⟨hrest, hroots⟩ := ih hfirst.sound
    exact ⟨hfirst.trans hrest, .cons (hrest.rootOf _ _ hroot) hroots⟩

end Find

theorem exists_of_forall₂_left {α β : Type} {R : α → β → Prop} {as : List α} {bs : List β}
    (h : List.Forall₂ R as bs) {a : α} (ha : a ∈ as) : ∃ b ∈ bs, R a b := by
  induction h with
  | nil => cases ha
  | cons hab _ ih =>
    rcases List.mem_cons.mp ha with rfl | ha
    · exact ⟨_, List.mem_cons_self, hab⟩
    · obtain ⟨b, hb, hR⟩ := ih ha
      exact ⟨b, List.mem_cons_of_mem _ hb, hR⟩

theorem exists_of_forall₂_right {α β : Type} {R : α → β → Prop} {as : List α} {bs : List β}
    (h : List.Forall₂ R as bs) {b : β} (hb : b ∈ bs) :
    ∃ a ∈ as, R a b :=
  exists_of_forall₂_left h.flip hb

/-- **The roots of keys differ if and only if the keys are pairwise in different sets.** -/
theorem nodup_iff_pairwise {s : DisjointSets} {ks : List Key} {roots : List ℕ}
    (h : List.Forall₂ (RootOf s) ks roots) :
    roots.Nodup ↔ ks.Pairwise fun k l => ¬ Together s k l := by
  induction h with
  | nil => simp
  | @cons k r ks roots hk hks ih =>
    rw [List.nodup_cons, List.pairwise_cons, ih]
    refine and_congr_left' ⟨fun hr l hl hkl => ?_, fun hr hmem => ?_⟩
    · obtain ⟨t, ht, hlt⟩ := exists_of_forall₂_left hks hl
      exact hr ((hk.together_iff hlt).mp hkl ▸ ht)
    · obtain ⟨l, hl, hlr⟩ := exists_of_forall₂_right hks hmem
      exact hr l hl ((hk.together_iff hlr).mpr rfl)

/-- **Joining the roots of keys joins the sets of the keys.** -/
theorem together_unionAll {s : DisjointSets} (h : Sound s) {ks : List Key} {roots : List ℕ}
    (hroots : List.Forall₂ (RootOf s) ks roots) :
    Sound (s.unionAll roots) ∧ ∀ k l, Together (s.unionAll roots) k l ↔
      Together s k l ∨ (∃ a ∈ ks, Together s k a) ∧ ∃ b ∈ ks, Together s l b := by
  have hlt : ∀ r ∈ roots, r < s.parent.size := by
    intro r hr
    obtain ⟨k, -, i, hi, hlead⟩ := exists_of_forall₂_right hroots hr
    exact h.ranked.leads_lt hlead (h.index_lt k i hi)
  have hm := h.unionAll_spec hlt
  -- for a key with a number, being together with one of the keys is being in the set of one of the
  -- roots
  have hkeys : ∀ k, (∃ a ∈ ks, Together s k a) ↔ ∃ i, s.index.get? k = some i ∧
      ∃ r ∈ roots, Same s i r := by
    intro k
    constructor
    · rintro ⟨a, ha, hka⟩
      obtain ⟨r, hr, j, hj, hjr⟩ := exists_of_forall₂_left hroots ha
      rcases hka with rfl | ⟨i, j', hi, hj', hij⟩
      · exact ⟨j, hj, r, hr, hjr.sameRoot⟩
      · obtain rfl : j = j' := Option.some.inj (hj.symm.trans hj')
        exact ⟨i, hi, r, hr, hij.trans hjr.sameRoot⟩
    · rintro ⟨i, hi, r, hr, hir⟩
      obtain ⟨a, ha, j, hj, hjr⟩ := exists_of_forall₂_right hroots hr
      exact ⟨a, ha, .inr ⟨i, j, hi, hj, hir.trans hjr.sameRoot.symm⟩⟩
  refine ⟨hm.sound, fun k l => ?_⟩
  rw [hkeys, hkeys, Together, Together, hm.index, or_assoc]
  refine or_congr_right ⟨?_, ?_⟩
  · rintro ⟨i, j, hi, hj, hij⟩
    rcases (hm.same i j).mp hij with hij | ⟨hir, hjr⟩
    · exact .inl ⟨i, j, hi, hj, hij⟩
    · exact .inr ⟨⟨i, hi, hir⟩, j, hj, hjr⟩
  · rintro (⟨i, j, hi, hj, hij⟩ | ⟨⟨i, hi, hir⟩, j, hj, hjr⟩)
    · exact ⟨i, j, hi, hj, (hm.same i j).mpr (.inl hij)⟩
    · exact ⟨i, j, hi, hj, (hm.same i j).mpr (.inr ⟨hir, hjr⟩)⟩

end Smoothing.DisjointSets
