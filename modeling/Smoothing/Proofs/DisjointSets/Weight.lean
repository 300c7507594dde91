import Mathlib
import Smoothing.Proofs.DisjointSets

/-!
# Ranks and members

A root of rank `k` has at least `2 ^ k` numbers below it (`Weighted`): walks keep who is below a
root (`Weighted.of_leads`), a new number is one member of rank zero (`Weighted.succ`), and a root
gets a larger rank only when a root of its own rank is put below it (`Weighted.link`). So ranks are
logarithmic in the number of keys (`Weighted.rank_lt`).
-/

open Finset

namespace Smoothing.DisjointSets

section Weighted
open Classical

variable {n : ℕ} {rank rank' f f' : ℕ → ℕ} {a b : ℕ}

/-- The numbers below `n` whose walk ends in a root. -/
noncomputable def below (n : ℕ) (f : ℕ → ℕ) (r : ℕ) : Finset ℕ := (range n).filter (Leads f · r)

theorem mem_below {i r : ℕ} : i ∈ below n f r ↔ i < n ∧ Leads f i r := by
  rw [below, mem_filter, mem_range]

theorem disjoint_below {r s : ℕ} (hrs : r ≠ s) : Disjoint (below n f r) (below n f s) :=
  disjoint_left.mpr fun _ hr hs => hrs ((mem_below.mp hr).2.unique (mem_below.mp hs).2)

/-- Roots have as many numbers below them as their ranks ask for. -/
def Weighted (n : ℕ) (rank f : ℕ → ℕ) : Prop := ∀ r < n, f r = r → 2 ^ rank r ≤ (below n f r).card

/-- What keeps the numbers below roots keeps the weights. -/
theorem Weighted.of_leads (h : Weighted n rank f) (hleads : ∀ j r, Leads f' j r ↔ Leads f j r) :
    Weighted n rank f' := by
  intro r hr hroot
  have hbelow : below n f' r = below n f r := by
    ext i
    rw [mem_below, mem_below, hleads]
  rw [hbelow]
  exact h r hr ((hleads r r).mp (.root hroot)).isRoot

theorem Weighted.succ (h : Weighted n rank f) (hrank : rank n = 0) : Weighted (n + 1) rank f := by
  intro r hr hroot
  rcases Nat.lt_succ_iff_lt_or_eq.mp hr with hr | rfl
  · refine (h r hr hroot).trans (card_le_card fun i hi => ?_)
    obtain ⟨hi, hlead⟩ := mem_below.mp hi
    exact mem_below.mpr ⟨Nat.lt_succ_of_lt hi, hlead⟩
  · rw [hrank, pow_zero]
    exact card_pos.mpr ⟨r, mem_below.mpr ⟨hr, .root hroot⟩⟩

/-- **Putting a root below another one** keeps the weights, if the rank of that one grows by no more
than its weight. -/
theorem Weighted.link (h : Weighted n rank f) (ha : f a = a) (hb : f b = b) (han : a < n)
    (hbn : b < n) (hab : a ≠ b) (hrank : ∀ r, r ≠ b → rank' r = rank r)
    (hrankb : 2 ^ rank' b ≤ 2 ^ rank a + 2 ^ rank b) :
    Weighted n rank' (Function.update f a b) := by
  have hlink : ∀ {i r}, Leads f i r → Leads (Function.update f a b) i (if r = a then b else r) :=
    Leads.link ha hb hab
  intro r hr hroot
  have hra : r ≠ a := by
    rintro rfl
    rw [Function.update_self] at hroot
    exact hab hroot.symm
  rw [Function.update_of_ne hra] at hroot
  by_cases hrb : r = b
  · subst hrb
    have hboth : below n f a ∪ below n f r ⊆ below n (Function.update f a r) r := by
      refine union_subset (fun i hi => ?_) fun i hi => ?_
      · obtain ⟨hi, hlead⟩ := mem_below.mp hi
        exact mem_below.mpr ⟨hi, by simpa using hlink hlead⟩
      · obtain ⟨hi, hlead⟩ := mem_below.mp hi
        exact mem_below.mpr ⟨hi, by simpa [hab.symm] using hlink hlead⟩
    calc 2 ^ rank' r ≤ 2 ^ rank a + 2 ^ rank r := hrankb
      _ ≤ (below n f a).card + (below n f r).card := Nat.add_le_add (h a han ha) (h r hbn hb)
      _ = (below n f a ∪ below n f r).card := (card_union_of_disjoint (disjoint_below hab)).symm
      _ ≤ (below n (Function.update f a r) r).card := card_le_card hboth
  · rw [hrank r hrb]
    refine (h r hr hroot).trans (card_le_card fun i hi => ?_)
    obtain ⟨hi, hlead⟩ := mem_below.mp hi
    exact mem_below.mpr ⟨hi, by simpa [hra] using hlink hlead⟩

theorem Leads.rank_le (hranked : Ranked n rank f) {i r : ℕ} (h : Leads f i r) :
    rank i ≤ rank r := by
  induction h with
  | root _ => exact le_rfl
  | @step i r _ ih => exact (hranked.rank_le i).trans ih

/-- **With fewer than `2 ^ m` numbers all ranks are below `m`.** -/
theorem Weighted.rank_lt (h : Weighted n rank f) (hranked : Ranked n rank f) {i r m : ℕ}
    (hi : i < n) (hlead : Leads f i r) (hn : n < 2 ^ m) : rank i < m := by
  have hpow : 2 ^ rank r < 2 ^ m := by
    calc 2 ^ rank r ≤ (below n f r).card := h r (hranked.leads_lt hlead hi) hlead.isRoot
      _ ≤ (range n).card := card_le_card (filter_subset _ _)
      _ = n := card_range n
      _ < 2 ^ m := hn
  exact (hlead.rank_le hranked).trans_lt ((Nat.pow_lt_pow_iff_right (by decide)).mp hpow)

end Weighted

/-! ### Weights of a partition -/

/-- The roots of a partition have the numbers that their ranks ask for. -/
def Heavy (s : DisjointSets) : Prop := Weighted s.parent.size (s.rank.getD · 0) (parentOf s.parent)

theorem heavy_empty : Heavy empty := fun _ hr => absurd hr (Nat.not_lt_zero _)

variable {s : DisjointSets}

theorem Keeps.heavy {s' : DisjointSets} (h : Keeps s s') (hrank : s'.rank = s.rank) (hw : Heavy s) :
    Heavy s' := by
  rw [Heavy, hrank, h.size]
  exact hw.of_leads h.leads

theorem Sound.heavy_insert (h : Sound s) (hw : Heavy s) (k : Key) :
    Heavy ⟨s.index.insert k s.parent.size, s.parent.push s.parent.size, s.rank.push 0⟩ := by
  rw [Heavy, Array.size_push, parentOf_push, getD_push_zero]
  refine hw.succ ?_
  rw [← h.ranks]
  simp

theorem Links.heavy {s' : DisjointSets} {a b : ℕ} (h : Links s s' a b) (hw : Heavy s) :
    Heavy s' := by
  rw [Heavy, h.size, h.parentOf_eq]
  exact hw.link h.isRoot_left h.isRoot_right h.lt_left h.lt_right h.ne h.rank_of_ne h.pow_rank_le

/-- **Joining the sets of two numbers keeps the weights.** -/
theorem Sound.heavy_union (h : Sound s) (hw : Heavy s) {a b : ℕ} (hal : a < s.parent.size)
    (hbl : b < s.parent.size) : Heavy (s.union a b) := by
  obtain ⟨s₂, ra, rb, hk, hrank, -, -, ⟨-, hu⟩ | hlinks⟩ := h.union_cases hal hbl
  · rw [hu]
    exact hk.heavy hrank hw
  · exact hlinks.elim (·.heavy (hk.heavy hrank hw)) (·.heavy (hk.heavy hrank hw))

end Smoothing.DisjointSets
