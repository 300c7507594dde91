import Mathlib
import Smoothing.Proofs.DisjointSets.Weight

/-!
# Histories of a partition

A partition comes from keys that were looked up and from unions of numbers that keys have
(`Reachable`). A step keeps its `Invariant`: the numbers are the places of the keys in the order of
their first look-up, and two numbers are in one set if and only if the unions so far relate them
(`joined_append_iff`). So after any history the walk to a root ends without a bound on its steps
(`Walks`), look-ups find the same root exactly for keys that are related, whatever is looked up
between them, and a rank fits in eight bits for any number of keys that could ever be stored:
`Reachable.partition_spec`.
-/

open Finset

namespace Smoothing.DisjointSets

/-! ### Walks without a bound -/

/-- A walk to a root that is not bounded: it ends at a number that points to itself, and otherwise
the number is made to point past its parent, where the walk goes on. All numbers that are read are
in range. -/
inductive Walks : Array ℕ → ℕ → Array ℕ → ℕ → Prop
  | stop {parent : Array ℕ} {i : ℕ} (hi : i < parent.size) (h : parentOf parent i = i) :
  Walks parent i parent i
  | step {parent parent' : Array ℕ} {i g r : ℕ} (hi : i < parent.size)
      (hp : parentOf parent i < parent.size)
      (h : parentOf parent i ≠ i) (hg : parentOf parent (parentOf parent i) = g)
      (rest : Walks (parent.setIfInBounds i g) g parent' r) : Walks parent i parent' r

/-- **A walk in ranked parents ends**, and the bounded walk is the one without a bound. -/
theorem Ranked.walks {rank : ℕ → ℕ} {fuel : ℕ} {parent : Array ℕ} {i : ℕ}
    (h : Ranked parent.size rank (parentOf parent)) (hi : i < parent.size)
    (hfuel : (above parent.size rank i).card ≤ fuel) :
    Walks parent i (walk fuel parent i).1 (walk fuel parent i).2 := by
  induction fuel generalizing parent i with
  | zero =>
    refine .stop hi (by_contra fun hne => ?_)
    exact absurd (h.card_above_lt hne) (by omega)
  | succ fuel ih =>
    rw [walk]
    by_cases hroot : parentOf parent i = i
    · rw [if_pos hroot]
      exact .stop hi hroot
    · rw [if_neg hroot]
      have hparent := h.lt i hroot
      have hsize : (parent.setIfInBounds i (parentOf parent (parentOf parent i))).size =
          parent.size :=
        Array.size_setIfInBounds
      refine .step hi hparent hroot rfl (ih ?_ ?_ ?_)
      · rw [hsize, parentOf_set hi]
        exact h.halve hroot
      · rw [hsize]
        by_cases hp : parentOf parent (parentOf parent i) = parentOf parent i
        · rwa [hp]
        · exact h.lt _ hp
      · rw [hsize]
        exact Nat.le_of_lt_succ ((h.card_above_lt hroot).trans_le hfuel)

/-! ### Unions -/

/-- Numbers that unions relate: the equivalence that they generate. -/
def Joined (joins : List (ℕ × ℕ)) : ℕ → ℕ → Prop := Relation.EqvGen fun a b => (a, b) ∈ joins

theorem joined_nil_iff {i j : ℕ} : Joined [] i j ↔ i = j := by
  constructor
  · intro h
    induction h with
    | rel _ _ h => cases h
    | refl => rfl
    | symm _ _ _ ih => exact ih.symm
    | trans _ _ _ _ _ ih ih' => exact ih.trans ih'
  · rintro rfl
    exact .refl i

/-- **One more union** relates what was related to one of its numbers. -/
theorem joined_append_iff {joins : List (ℕ × ℕ)} {a b i j : ℕ} : Joined (joins ++ [(a, b)]) i j ↔
    Joined joins i j ∨ (∃ x ∈ [a, b], Joined joins i x) ∧ ∃ y ∈ [a, b], Joined joins j y := by
  have hmono : ∀ {i j}, Joined joins i j → Joined (joins ++ [(a, b)]) i j := fun h =>
    h.mono fun _ _ hmem => List.mem_append_left _ hmem
  have hab : Joined (joins ++ [(a, b)]) a b := .rel a b (List.mem_append_right _ List.mem_cons_self)
  constructor
  · intro h
    induction h with
    | rel i j h =>
      rcases List.mem_append.mp h with h | h
      · exact .inl (.rel i j h)
      · obtain ⟨rfl, rfl⟩ := Prod.mk.inj (List.mem_singleton.mp h)
        exact .inr ⟨⟨i, by simp, .refl i⟩, j, by simp, .refl j⟩
    | refl i => exact .inl (.refl i)
    | symm i j _ ih => exact ih.imp (fun h => h.symm) And.symm
    | trans i j k _ _ ih ih' =>
      rcases ih with h | ⟨hi, y, hy, hjy⟩
      · rcases ih' with h' | ⟨⟨x, hx, hjx⟩, hk⟩
        · exact .inl (h.trans _ _ _ h')
        · exact .inr ⟨⟨x, hx, h.trans _ _ _ hjx⟩, hk⟩
      · rcases ih' with h' | ⟨-, hk⟩
        · exact .inr ⟨hi, y, hy, (h'.symm).trans _ _ _ hjy⟩
        · exact .inr ⟨hi, hk⟩
  · rintro (h | ⟨⟨x, hx, hix⟩, y, hy, hjy⟩)
    · exact hmono h
    · have hxy : Joined (joins ++ [(a, b)]) x y := by
        simp only [List.mem_cons, List.not_mem_nil, or_false] at hx hy
        rcases hx with rfl | rfl <;> rcases hy with rfl | rfl
        · exact .refl _
        · exact hab
        · exact hab.symm
        · exact .refl _
      exact (hmono hix).trans _ _ _ (hxy.trans _ _ _ (hmono hjy).symm)

/-! ### Histories -/

/-- The keys that have been looked up, in the order of their first look-up. -/
def lookedUp (keys : List Key) (k : Key) : List Key := if k ∈ keys then keys else keys ++ [k]

/-- The partitions that look-ups and unions lead to from no keys. The keys are listed in the order
of their first look-up, and the unions as they were made, of numbers that were given to keys. -/
inductive Reachable : List Key → List (ℕ × ℕ) → DisjointSets → Prop
  | empty : Reachable [] [] empty
  | find {keys : List Key} {joins : List (ℕ × ℕ)} {s : DisjointSets} (hs : Reachable keys joins s)
      (k : Key) : Reachable (lookedUp keys k) joins (s.find k).1
  | union {keys : List Key} {joins : List (ℕ × ℕ)} {s : DisjointSets} (hs : Reachable keys joins s)
      {a b : ℕ}
      (ha : a < keys.length) (hb : b < keys.length) :
        Reachable keys (joins ++ [(a, b)]) (s.union a b)

/-- What holds of a partition with a history: the numbers are the places of the keys, sets are what
the unions relate, and ranks count members. -/
structure Invariant (keys : List Key) (joins : List (ℕ × ℕ)) (s : DisjointSets) : Prop where
  sound : Sound s
  heavy : Heavy s
  size : s.parent.size = keys.length
  index : ∀ k i, s.index.get? k = some i ↔ keys[i]? = some k
  same : ∀ i j, Same s i j ↔ Joined joins i j

theorem invariant_empty : Invariant [] [] empty := by
  refine ⟨sound_empty, heavy_empty, rfl, fun k i => by simp [empty], fun i j => ?_⟩
  have hroot : ∀ l, Leads (parentOf empty.parent) l l := fun l => .root rfl
  rw [joined_nil_iff]
  exact sameRoot_iff (hroot i) (hroot j)

namespace Invariant

variable {keys : List Key} {joins : List (ℕ × ℕ)} {s : DisjointSets} (h : Invariant keys joins s)
include h

theorem root (i : ℕ) : Invariant keys joins (s.root i).1 := by
  obtain ⟨hkeeps, -⟩ := h.sound.root_spec i
  refine ⟨hkeeps.sound, hkeeps.heavy rfl h.heavy, hkeeps.size.trans h.size, fun k j => ?_,
    fun j l => ?_⟩
  · rw [hkeeps.index, h.index]
  · rw [hkeeps.same, h.same]

theorem mem_iff {k : Key} : k ∈ keys ↔ ∃ i, s.index.get? k = some i := by
  simp only [List.mem_iff_getElem?, h.index]

theorem notMem {k : Key} (hk : s.index.get? k = none) : k ∉ keys := by
  rw [h.mem_iff, hk]
  rintro ⟨i, hi⟩
  cases hi

/-- A new key has the next number, which no union relates to others yet. -/
theorem insert {k : Key} (hk : s.index.get? k = none) : Invariant (keys ++ [k]) joins
    ⟨s.index.insert k s.parent.size, s.parent.push s.parent.size, s.rank.push 0⟩ := by
  refine ⟨(h.sound.found_insert hk).sound, h.sound.heavy_insert h.heavy k, ?_, fun l i => ?_,
    fun i j => ?_⟩
  · rw [Array.size_push, List.length_append, h.size, List.length_singleton]
  · rw [KeyMap.get?_insert, h.size]
    by_cases hl : l = k
    · subst hl
      rw [if_pos rfl, Option.some.injEq, List.getElem?_append]
      split_ifs with hi
      · exact ⟨fun hlen => absurd hlen hi.ne',
          fun hmem => absurd (List.mem_of_getElem? hmem) (h.notMem hk)⟩
      · rw [List.getElem?_singleton]
        split_ifs with hlen
        · simp
          omega
        · simp
          omega
    · rw [if_neg hl, h.index, List.getElem?_append]
      split_ifs with hi
      · rfl
      · rw [List.getElem?_eq_none (Nat.le_of_not_lt hi)]
        simp [List.getElem?_singleton, Ne.symm hl]
  · rw [Same, parentOf_push]
    exact h.same i j

theorem find (k : Key) : Invariant (lookedUp keys k) joins (s.find k).1 := by
  rw [DisjointSets.find]
  cases hk : s.index.get? k with
  | some i =>
    rw [lookedUp, if_pos (h.mem_iff.mpr ⟨i, hk⟩)]
    exact h.root i
  | none =>
    rw [lookedUp, if_neg (h.notMem hk)]
    exact (h.insert hk).root s.parent.size

theorem union {a b : ℕ} (ha : a < keys.length) (hb : b < keys.length) :
    Invariant keys (joins ++ [(a, b)]) (s.union a b) := by
  rw [← h.size] at ha hb
  have hmerges := h.sound.union_spec ha hb
  refine ⟨hmerges.sound, h.sound.heavy_union h.heavy ha hb, hmerges.size.trans h.size,
    fun k i => ?_, fun i j => ?_⟩
  · rw [hmerges.index, h.index]
  · rw [hmerges.same, joined_append_iff]
    simp only [h.same]

end Invariant

/-- **Every history keeps the invariant.** -/
theorem Reachable.invariant {keys : List Key} {joins : List (ℕ × ℕ)} {s : DisjointSets}
    (h : Reachable keys joins s) : Invariant keys joins s := by
  induction h with
  | empty => exact invariant_empty
  | find _ k ih => exact ih.find k
  | union _ ha hb ih => exact ih.union ha hb

/-! ### What a history leads to -/

/-- Keys that are equal, or whose numbers are related by unions. -/
def Related (keys : List Key) (joins : List (ℕ × ℕ)) (a b : Key) : Prop :=
  a = b ∨ ∃ i j, keys[i]? = some a ∧ keys[j]? = some b ∧ Joined joins i j

/-- The numbers from which walks end in a root. -/
def members (s : DisjointSets) (r : ℕ) : Finset ℕ :=
  (range s.parent.size).filter fun i => (s.root i).2 = r

namespace Invariant

variable {keys : List Key} {joins : List (ℕ × ℕ)} {s : DisjointSets} (h : Invariant keys joins s)
include h

theorem together_iff {a b : Key} : Together s a b ↔ Related keys joins a b := by
  simp only [Together, Related, h.index, h.same]

theorem walks {i : ℕ} (hi : i < keys.length) : Walks s.parent i (s.root i).1.parent (s.root i).2 :=
  h.sound.ranked.walks (h.size ▸ hi) (card_above_le _ _ _)

theorem root_root (i j : ℕ) : ((s.root i).1.root j).2 = (s.root j).2 := by
  obtain ⟨hkeeps, -⟩ := h.sound.root_spec i
  obtain ⟨-, hj⟩ := h.sound.root_spec j
  obtain ⟨-, hj'⟩ := hkeeps.sound.root_spec j
  exact ((hkeeps.leads _ _).mp hj').unique hj

/-- **Look-ups find one root** exactly for keys that are related, whatever is looked up between
them. -/
theorem find_eq_iff (a b : Key) (between : List Key) :
    (s.find a).2 = (((s.find a).1.findAll between).1.find b).2 ↔ Related keys joins a b := by
  obtain ⟨hfirst, hroot⟩ := h.sound.find_spec a
  obtain ⟨hbetween, -⟩ := hfirst.sound.findAll_spec between
  obtain ⟨hlast, hroot'⟩ := hbetween.sound.find_spec b
  have hfound := (hfirst.trans hbetween).trans hlast
  rw [← (hlast.rootOf _ _ (hbetween.rootOf _ _ hroot)).together_iff hroot', hfound.together,
    h.together_iff]

theorem find_lt (k : Key) : (s.find k).2 < (lookedUp keys k).length := by
  obtain ⟨hfound, i, hi, hlead⟩ := h.sound.find_spec k
  rw [← (h.find k).size]
  exact hfound.sound.ranked.leads_lt hlead (hfound.sound.index_lt k i hi)

theorem card_members {r : ℕ} (hr : r < keys.length) (hroot : parentOf s.parent r = r) :
    2 ^ s.rank.getD r 0 ≤ (members s r).card := by
  have hbelow : below s.parent.size (parentOf s.parent) r = members s r := by
    ext i
    obtain ⟨-, hlead⟩ := h.sound.root_spec i
    rw [mem_below, members, mem_filter, mem_range]
    exact and_congr_right fun _ => ⟨hlead.unique, fun hr => hr ▸ hlead⟩
  rw [← hbelow]
  exact h.heavy r (h.size ▸ hr) hroot

theorem rank_lt {m i : ℕ} (hm : keys.length < 2 ^ m) (hi : i < keys.length) :
    s.rank.getD i 0 < m := by
  obtain ⟨-, hlead⟩ := h.sound.root_spec i
  rw [← h.size] at hm hi
  exact h.heavy.rank_lt h.sound.ranked hi hlead hm

end Invariant

/-- **A partition after any history**: the numbers are the places of the keys, and look-ups give no
others; walks to roots end, and they keep all roots; look-ups find the same root exactly for keys
that the unions relate; and a root of rank `k` has at least `2 ^ k` members, so that ranks fit in
eight bits for fewer than `2 ^ 256` keys. -/
theorem Reachable.partition_spec {keys : List Key} {joins : List (ℕ × ℕ)} {s : DisjointSets}
    (h : Reachable keys joins s) :
    (∀ k i, s.index.get? k = some i ↔ keys[i]? = some k) ∧
      (∀ k, (s.find k).2 < (lookedUp keys k).length) ∧
      (∀ i < keys.length, Walks s.parent i (s.root i).1.parent (s.root i).2) ∧
      (∀ i j, ((s.root i).1.root j).2 = (s.root j).2) ∧
      (∀ a b between, (s.find a).2 = (((s.find a).1.findAll between).1.find b).2 ↔
        Related keys joins a b) ∧
      (∀ r < keys.length, parentOf s.parent r = r → 2 ^ s.rank.getD r 0 ≤ (members s r).card) ∧
      (keys.length < 2 ^ 256 → ∀ i < keys.length, s.rank.getD i 0 < 2 ^ 8) := by
  have hinv := h.invariant
  exact ⟨hinv.index, hinv.find_lt, fun _ => hinv.walks, hinv.root_root, hinv.find_eq_iff,
    fun _ => hinv.card_members, fun hm _ => hinv.rank_lt hm⟩

/-- Two of three keys are joined before the third is looked up. -/
theorem partition_spec_three_keys :
    let s := ((((empty.find ⟨'x', 1⟩).1.find ⟨'x', 2⟩).1.union 0 1).find ⟨'l', 1⟩).1
    (s.find ⟨'x', 2⟩).2 = (((s.find ⟨'x', 2⟩).1.findAll [⟨'l', 1⟩]).1.find ⟨'x', 1⟩).2 ∧
      2 ≤ (members s 0).card ∧ s.rank.getD 0 0 < 2 ^ 8 := by
  intro s
  have hs : Reachable [⟨'x', 1⟩, ⟨'x', 2⟩, ⟨'l', 1⟩] [(0, 1)] s :=
    .find (.union (.find (.find .empty ⟨'x', 1⟩) ⟨'x', 2⟩) (by decide) (by decide)) ⟨'l', 1⟩
  obtain ⟨-, -, -, -, hfind, hmembers, hrank⟩ := Reachable.partition_spec hs
  refine ⟨(hfind _ _ _).mpr (.inr ⟨1, 0, rfl, rfl, .symm _ _ (.rel 0 1 List.mem_cons_self)⟩), ?_,
    hrank (by decide) 0 (by decide)⟩
  -- the first key was joined with one of its own rank
  have hone : s.rank.getD 0 0 = 1 := by decide +kernel
  have hcard := hmembers 0 (by decide) (by decide +kernel)
  rwa [hone] at hcard

end Smoothing.DisjointSets
