import Mathlib
import Smoothing.Linear.BayesNet
import Smoothing.Proofs.Linear.Factor
import Smoothing.Proofs.Mat.Substitution

/-!
# Block triangular systems

The conditionals of a Bayes net are rows of blocks: at a point each has a value `R p_k + Σ S_j p_j`
(`Conditional.value`). They are *block triangular* if every diagonal block is regular and the
parents of a conditional come after it (`BlockTriangular`).

* Solved backwards, the values are the right-hand sides (`exists_solveBackwards`), at one point only
  (`BlockTriangular.eq_of_value_eq`).
* Solved forwards, the blocks `z` have the same inner product with the values at any point as the
right-hand sides have with the point itself (`exists_solveForwards`): `⟨z, R p⟩ = ⟨x, p⟩`, which is
`Rᵀ z = x`.
-/

open Finset

namespace Smoothing

namespace Conditional

/-- The value of row `i` of a conditional at a point. -/
noncomputable def value (c : Conditional ℝ) (p : Key → ℕ → ℝ) (i : ℕ) : ℝ :=
  rowValue ((c.key, c.r) :: c.parents) p i

/-- The squared distance of the values at a point from the right-hand side. -/
noncomputable def sq (c : Conditional ℝ) (p : Key → ℕ → ℝ) : ℝ :=
  ∑ i ∈ range c.dim, (c.value p i - c.d.get i) ^ 2

theorem zero_le_sq (c : Conditional ℝ) (p : Key → ℕ → ℝ) : 0 ≤ c.sq p :=
  sum_nonneg fun _ _ => sq_nonneg _

/-- The blocks of a conditional have the right sizes and its diagonal block is regular. -/
structure WellFormed (dims : KeyMap ℕ) (c : Conditional ℝ) : Prop where
  dim : dims.get? c.key = some c.dim
  regular : Mat.IsRegularUpper c.dim c.r
  height : ∀ t ∈ c.parents, t.2.height = c.dim
  cols : ∀ t ∈ c.parents, dims.get? t.1 = some t.2.cols

theorem WellFormed.value_eq {dims : KeyMap ℕ} {c : Conditional ℝ} (hc : c.WellFormed dims)
    (p : Key → ℕ → ℝ) (i : ℕ) :
    c.value p i = ∑ j ∈ range c.dim, c.r.get i j * p c.key j + rowValue c.parents p i := by
  rw [value, rowValue_cons, hc.regular.cols]

end Conditional

/-- Conditionals of which each has its parents after it. -/
def BlockTriangular (dims : KeyMap ℕ) : List (Conditional ℝ) → Prop
  | [] => True
  | c :: cs => c.WellFormed dims ∧ (∀ t ∈ c.parents, t.1 ∈ cs.map Conditional.key) ∧
      c.key ∉ cs.map Conditional.key ∧ BlockTriangular dims cs

/-- The sum of the squared distances of all conditionals from their right-hand sides. -/
noncomputable def conditionalsSq (cs : List (Conditional ℝ)) (p : Key → ℕ → ℝ) : ℝ :=
  (cs.map fun c => c.sq p).sum

@[simp] theorem conditionalsSq_nil (p : Key → ℕ → ℝ) : conditionalsSq [] p = 0 := rfl

@[simp] theorem conditionalsSq_cons (c : Conditional ℝ) (cs : List (Conditional ℝ))
    (p : Key → ℕ → ℝ) : conditionalsSq (c :: cs) p = c.sq p + conditionalsSq cs p := List.sum_cons

theorem zero_le_conditionalsSq (cs : List (Conditional ℝ)) (p : Key → ℕ → ℝ) :
    0 ≤ conditionalsSq cs p :=
  List.sum_nonneg fun a ha => by
    obtain ⟨c, -, rfl⟩ := List.mem_map.mp ha
    exact c.zero_le_sq p

theorem value_eq_of_conditionalsSq_eq_zero {cs : List (Conditional ℝ)} {p : Key → ℕ → ℝ}
    (h : conditionalsSq cs p = 0) : ∀ c ∈ cs, ∀ i < c.dim, c.value p i = c.d.get i := by
  induction cs with
  | nil => simp
  | cons c cs ih =>
    rw [conditionalsSq_cons,
      add_eq_zero_iff_of_nonneg (c.zero_le_sq p) (zero_le_conditionalsSq cs p)] at h
    obtain ⟨hc, hcs⟩ := h
    intro c' hc' i hi
    rcases List.mem_cons.mp hc' with rfl | hc'
    · rw [Conditional.sq, sum_eq_zero_iff_of_nonneg fun _ _ => sq_nonneg _] at hc
      exact sub_eq_zero.mp ((pow_eq_zero_iff two_ne_zero).mp (hc i (mem_range.mpr hi)))
    · exact ih hcs c' hc' i hi

theorem conditionalsSq_eq_zero {cs : List (Conditional ℝ)} {p : Key → ℕ → ℝ}
    (h : ∀ c ∈ cs, ∀ i < c.dim, c.value p i = c.d.get i) : conditionalsSq cs p = 0 := by
  refine List.sum_eq_zero fun a ha => ?_
  obtain ⟨c, hc, rfl⟩ := List.mem_map.mp ha
  refine sum_eq_zero fun i hi => ?_
  rw [h c hc i (mem_range.mp hi), sub_self, zero_pow two_ne_zero]

namespace BlockTriangular

variable {dims : KeyMap ℕ} {cs : List (Conditional ℝ)} (h : BlockTriangular dims cs)
include h

theorem nodup_keys : (cs.map Conditional.key).Nodup := by
  induction cs with
  | nil => exact List.nodup_nil
  | cons c cs ih => exact List.nodup_cons.mpr ⟨h.2.2.1, ih h.2.2.2⟩

theorem wellFormed : ∀ c ∈ cs, c.WellFormed dims := by
  induction cs with
  | nil => simp
  | cons c cs ih =>
    intro c' hc'
    rcases List.mem_cons.mp hc' with rfl | hc'
    · exact h.1
    · exact ih h.2.2.2 c' hc'

theorem parent_mem : ∀ c ∈ cs, ∀ t ∈ c.parents, t.1 ∈ cs.map Conditional.key := by
  induction cs with
  | nil => simp
  | cons c cs ih =>
    intro c' hc' t ht
    rw [List.map_cons]
    rcases List.mem_cons.mp hc' with rfl | hc'
    · exact List.mem_cons_of_mem _ (h.2.1 t ht)
    · exact List.mem_cons_of_mem _ (ih h.2.2.2 c' hc' t ht)

theorem value_congr {p q : Key → ℕ → ℝ}
    (hpq : ∀ c ∈ cs, ∀ i < c.dim, p c.key i = q c.key i) :
    ∀ c ∈ cs, ∀ i, c.value p i = c.value q i := by
  intro c hc i
  refine rowValue_congr (fun t ht j hj => ?_) i
  have hwf := h.wellFormed c hc
  rcases List.mem_cons.mp ht with rfl | ht
  · exact hpq c hc j (by rwa [← hwf.regular.cols])
  · obtain ⟨c', hc', hk⟩ := List.mem_map.mp (h.parent_mem c hc t ht)
    have hd := (h.wellFormed c' hc').dim
    rw [hk, hwf.cols t ht] at hd
    rw [← hk]
    exact hpq c' hc' j (by rw [← Option.some.inj hd]; exact hj)

/-- **Two points with the same values agree on the variables.** -/
theorem eq_of_value_eq {p q : Key → ℕ → ℝ} (hv : ∀ c ∈ cs, ∀ i < c.dim, c.value p i = c.value q i) :
    ∀ c ∈ cs, ∀ i < c.dim, p c.key i = q c.key i := by
  induction cs with
  | nil => simp
  | cons c cs ih =>
    have hcs := ih h.2.2.2 fun c' hc' => hv c' (List.mem_cons_of_mem _ hc')
    have hpar : ∀ i, rowValue c.parents p i = rowValue c.parents q i := by
      refine rowValue_congr fun t ht j hj => ?_
      obtain ⟨c', hc', hk⟩ := List.mem_map.mp (h.2.1 t ht)
      have hd := (h.2.2.2.wellFormed c' hc').dim
      rw [hk, h.1.cols t ht] at hd
      rw [← hk]
      exact hcs c' hc' j (by rw [← Option.some.inj hd]; exact hj)
    have hz := h.1.regular.eq_zero (u := fun j => p c.key j - q c.key j) fun i hi => by
      have hi' := hv c List.mem_cons_self i hi
      rw [h.1.value_eq, h.1.value_eq, hpar] at hi'
      simp only [mul_sub, sum_sub_distrib]
      linarith
    intro c' hc' i hi
    rcases List.mem_cons.mp hc' with rfl | hc'
    · exact sub_eq_zero.mp (hz i hi)
    · exact hcs c' hc' i hi

end BlockTriangular

theorem widths_eq_of_keys {dims : KeyMap ℕ} {cs : List (Conditional ℝ)} {x : BlockVector ℝ}
    (hk : ∀ k, k ∈ cs.map Conditional.key ↔ k ∈ dims.keys)
    (hx : ∀ k, x.widths.get? k = if k ∈ cs.map Conditional.key then dims.get? k else none) :
    x.widths = dims := by
  refine KeyMap.ext fun k => ?_
  rw [hx]
  split_ifs with hmem
  · rfl
  · rw [hk] at hmem
    exact (KeyMap.get?_eq_none_iff.mpr hmem).symm

/-! ### Solving backwards -/

namespace Conditional

theorem size_subMulVec {α : Type} [Scalar α] {y : Vec α} {s : Mat α} (h : s.height = y.size)
    (v : Vec α) : (subMulVec y s v).size = y.size := Mat.size_addProducts h v _

theorem get_subMulVec {y : Vec ℝ} {s : Mat ℝ} (h : s.height = y.size) (v : Vec ℝ) (i : ℕ) :
    (subMulVec y s v).get i = y.get i - ∑ j ∈ range s.cols, s.get i j * v.get j := by
  rw [subMulVec, Mat.get_addProducts (c := -1) (fun y a => by rw [neg_one_mul, sub_eq_add_neg]) h,
    neg_one_mul, sub_eq_add_neg]

/-- Moving the parents to the right-hand side takes their values away from it. -/
theorem exists_subParents {x : BlockVector ℝ} {ps : List (Key × Mat ℝ)} {y : Vec ℝ}
    (hh : ∀ t ∈ ps, t.2.height = y.size) (hx : ∀ t ∈ ps, x.widths.get? t.1 = some t.2.cols) :
    ∃ y', (subParents x y ps).outcome = .ok y' ∧ y'.size = y.size ∧
      ∀ i < y.size, y'.get i = y.get i - rowValue ps x.coord i := by
  induction ps generalizing y with
  | nil => exact ⟨y, rfl, rfl, fun i _ => by simp⟩
  | cons t ps ih =>
    obtain ⟨v, hv, hw⟩ := BlockVector.exists_of_get?_widths (hx t List.mem_cons_self)
    have ht := hh t List.mem_cons_self
    have hs := size_subMulVec ht v
    obtain ⟨y', hy', hsize, hget⟩ := ih (y := subMulVec y t.2 v)
      (fun t' ht' => (hh t' (List.mem_cons_of_mem _ ht')).trans hs.symm)
      fun t' ht' => hx t' (List.mem_cons_of_mem _ ht')
    refine ⟨y', ?_, hsize.trans hs, fun i hi => ?_⟩
    · rw [subParents, hv]
      simp only [ht, hw, and_self, if_true]
      exact hy'
    · have hsum : ∑ j ∈ range t.2.cols, t.2.get i j * x.coord t.1 j =
          ∑ j ∈ range t.2.cols, t.2.get i j * v.get j :=
        sum_congr rfl fun j _ => by rw [BlockVector.coord_of_get? hv]
      rw [hget i (by rwa [hs]), get_subMulVec ht v, rowValue_cons, hsum, sub_sub]

/-- **Solving one conditional**: with the parents known, the variable is found. -/
theorem WellFormed.exists_solveWith {dims : KeyMap ℕ} {c : Conditional ℝ} (hc : c.WellFormed dims)
    {y : Vec ℝ} (hy : y.size = c.dim) {x : BlockVector ℝ}
    (hx : ∀ t ∈ c.parents, x.widths.get? t.1 = some t.2.cols) :
    ∃ v, (c.solveWith y x).outcome = .ok v ∧ v.size = c.dim ∧ ∀ i < c.dim,
      ∑ j ∈ range c.dim, c.r.get i j * v.get j + rowValue c.parents x.coord i = y.get i := by
  obtain ⟨rhs, hrhs, hsize, hget⟩ := exists_subParents (y := y)
    (fun t ht => (hc.height t ht).trans hy.symm) hx
  obtain ⟨v, hv, hvs, hmul⟩ := Mat.exists_solveUpper? hc.regular (hsize.trans hy)
  refine ⟨v, ?_, hvs, fun i hi => ?_⟩
  · rw [solveWith, Logged.outcome_bind_ok _ hrhs]
    have hlt : ¬ rhs.size < c.r.height := by
      rw [hsize, hy, hc.regular.height]
      omega
    simp only [if_neg hlt, hv]
    rfl
  · have h := Mat.get_mulVec c.r v i
    rw [hmul, hget i (by rwa [hy]), hc.regular.cols] at h
    linarith

end Conditional

namespace BayesNet

/-- **Solved backwards, the values are the right-hand sides.** -/
theorem exists_solveBackwards {dims : KeyMap ℕ} {cs : List (Conditional ℝ)}
    (h : BlockTriangular dims cs) (rhs : Conditional ℝ → Vec ℝ)
    (hr : ∀ c ∈ cs, (rhs c).size = c.dim) :
    ∃ x, (solveBackwards rhs cs).outcome = .ok x ∧
      (∀ k, x.widths.get? k = if k ∈ cs.map Conditional.key then dims.get? k else none) ∧
        ∀ c ∈ cs, ∀ i < c.dim, c.value x.coord i = (rhs c).get i := by
  induction cs with
  | nil => exact ⟨KeyMap.empty, rfl, fun k => by simp, by simp⟩
  | cons c cs ih =>
    obtain ⟨hc, hpar, hkey, hcs⟩ := h
    obtain ⟨x, hx, hw, hv⟩ := ih hcs fun c' hc' => hr c' (List.mem_cons_of_mem _ hc')
    obtain ⟨v, hvo, hvs, hval⟩ := hc.exists_solveWith (hr c List.mem_cons_self) (x := x)
      fun t ht => by rw [hw, if_pos (hpar t ht), hc.cols t ht]
    have hcoord : ∀ k ∈ cs.map Conditional.key, ∀ i,
        BlockVector.coord (x.insert c.key v) k i = x.coord k i := by
      intro k hk i
      rw [BlockVector.coord_insert, if_neg]
      rintro rfl
      exact hkey hk
    refine ⟨x.insert c.key v, ?_, fun k => ?_, fun c' hc' i hi => ?_⟩
    · rw [solveBackwards, Logged.outcome_bind_ok _ hx, Logged.outcome_bind_ok _ hvo]
      rfl
    · rw [BlockVector.widths_insert, KeyMap.get?_insert, hw, hvs, List.map_cons]
      by_cases hk : k = c.key
      · rw [if_pos hk, if_pos (by rw [hk]; exact List.mem_cons_self), hk, hc.dim]
      · simp only [List.mem_cons, hk, false_or, if_false]
    · rcases List.mem_cons.mp hc' with rfl | hc'
      · rw [← hval i hi, hc.value_eq]
        congr 1
        · exact sum_congr rfl fun j _ => by rw [BlockVector.coord_insert, if_pos rfl]
        · exact rowValue_congr (fun t ht j _ => hcoord _ (hpar t ht) j) i
      · rw [← hv c' hc' i hi]
        exact hcs.value_congr (fun c'' hc'' j _ => hcoord _ (List.mem_map_of_mem hc'') j) c' hc' i

end BayesNet

/-! ### Solving forwards -/

/-- The right-hand sides of a forward pass: those changed so far, and else those given. -/
noncomputable def current (x g : BlockVector ℝ) (k : Key) (i : ℕ) : ℝ :=
  if k ∈ g.keys then g.coord k i else x.coord k i

section Current
variable {dims : KeyMap ℕ} {x g : BlockVector ℝ} (hx : Within dims x) (hg : Within dims g)
include hx hg

theorem size_entry {k : Key} {w : ℕ} (hd : dims.get? k = some w) :
    ((g.get? k).getD (x.blockOr k w)).size = w := by
  rcases hgk : g.get? k with _ | v
  · rw [Option.getD_none, BlockVector.blockOr]
    rcases hxk : x.get? k with _ | u
    · simp
    · have := hx k u hxk
      rw [hd] at this
      exact (Option.some.inj this).symm
  · have := hg k v hgk
    rw [hd] at this
    exact (Option.some.inj this).symm

omit hx hg in
theorem get_entry (k : Key) (w i : ℕ) :
    ((g.get? k).getD (x.blockOr k w)).get i = current x g k i := by
  unfold current
  rcases hgk : g.get? k with _ | v
  · rw [Option.getD_none, BlockVector.get_blockOr, if_neg (KeyMap.get?_eq_none_iff.mp hgk)]
  · rw [if_pos (KeyMap.mem_keys_iff_exists.mpr ⟨v, hgk⟩), BlockVector.coord_of_get? hgk]
    rfl

omit hx hg in
theorem current_insert (k : Key) (v : Vec ℝ) (j : Key) (i : ℕ) :
    current x (g.insert k v) j i = if j = k then v.get i else current x g j i := by
  simp only [current, KeyMap.mem_keys_insert, BlockVector.coord_insert]
  split_ifs <;> simp_all

omit hx hg in
theorem current_erase_of_ne {k j : Key} (h : j ≠ k) (i : ℕ) :
    current x (g.erase k) j i = current x g j i := by
  have hget : (g.erase k).get? j = g.get? j := by rw [KeyMap.get?_erase, if_neg h]
  have hmem : j ∈ (g.erase k).keys ↔ j ∈ g.keys := by rw [KeyMap.mem_keys, KeyMap.mem_keys, hget]
  simp only [current, hmem, BlockVector.coord, hget]

/-- **Pushing a solved block to the parents** takes its products with their blocks away from the
pairing. -/
theorem exists_pushToParents (ks : Finset Key) {z : Vec ℝ} {ps : List (Key × Mat ℝ)}
    (hh : ∀ t ∈ ps, t.2.height = z.size) (hd : ∀ t ∈ ps, dims.get? t.1 = some t.2.cols)
    (hk : ∀ t ∈ ps, t.1 ∈ ks) :
    ∃ g', (Conditional.pushToParents x z g ps).outcome = .ok g' ∧ Within dims g' ∧
      ∀ p, pairing dims ks (current x g') p =
        pairing dims ks (current x g) p - ∑ i ∈ range z.size, z.get i * rowValue ps p i := by
  induction ps generalizing g with
  | nil => exact ⟨g, rfl, hg, fun p => by simp⟩
  | cons t ps ih =>
    obtain ⟨k, s⟩ := t
    have hs : s.height = z.size := hh _ List.mem_cons_self
    have hdk : dims.get? k = some s.cols := hd _ List.mem_cons_self
    have hks : k ∈ ks := hk _ List.mem_cons_self
    set entry := (g.get? k).getD (x.blockOr k s.cols) with hentry
    have hes : entry.size = s.cols := size_entry hx hg hdk
    set new := Vec.axpy (-1) (s.transposeMulVec z) entry with hnew
    have hns : new.size = s.cols := by
      rw [hnew, Vec.size_axpy, Mat.size_transposeMulVec, hes, min_self]
    obtain ⟨g', hg', hw', hp'⟩ := ih (g := g.insert k new) (hg.insert (by rw [hns, hdk]))
      (fun t ht => hh t (List.mem_cons_of_mem _ ht)) (fun t ht => hd t (List.mem_cons_of_mem _ ht))
      fun t ht => hk t (List.mem_cons_of_mem _ ht)
    refine ⟨g', ?_, hw', fun p => ?_⟩
    · rw [Conditional.pushToParents]
      simp only [← hentry, hs, hes, and_self, if_true]
      exact hg'
    · have hnewget : ∀ i, new.get i = current x g k i - (s.transposeMulVec z).get i := by
        intro i
        rw [hnew, Vec.get_axpy _ (by rw [Mat.size_transposeMulVec, hes]), hentry, get_entry]
        ring
      have hstep : pairing dims ks (current x (g.insert k new)) p =
          pairing dims ks (current x g) p -
            ∑ i ∈ range z.size, z.get i * ∑ j ∈ range s.cols, s.get i j * p k j := by
        rw [pairing_update hks hdk (p := current x g) fun j _ hj i => by
          rw [current_insert, if_neg hj]]
        simp only [current_insert, if_true, hnewget, sub_sub_cancel_left, neg_mul, sum_neg_distrib]
        rw [s.sum_transposeMulVec, hs, sub_eq_add_neg]
      rw [hp', hstep]
      simp only [rowValue_cons, mul_add, sum_add_distrib]
      ring

end Current

namespace BayesNet

/-- **Solved forwards, the blocks have with the values at any point the inner product that the
right-hand sides have with the point.** -/
theorem exists_solveForwards {dims : KeyMap ℕ} {cs : List (Conditional ℝ)}
    (h : BlockTriangular dims cs) {x g z : BlockVector ℝ} (hx : Within dims x)
    (hg : Within dims g) : ∃ z', (solveForwards x g z cs).outcome = .ok z' ∧
      (∀ k, z'.widths.get? k = if k ∈ cs.map Conditional.key then dims.get? k
        else z.widths.get? k) ∧
        (∀ k ∉ cs.map Conditional.key, ∀ i, z'.coord k i = z.coord k i) ∧
          ∀ p, (cs.map fun c => ∑ i ∈ range c.dim, z'.coord c.key i * c.value p i).sum =
            pairing dims (cs.map Conditional.key).toFinset (current x g) p := by
  induction cs generalizing g z with
  | nil => exact ⟨z, rfl, fun k => by simp, fun k _ i => rfl, fun p => by simp [pairing]⟩
  | cons c cs ih =>
    obtain ⟨hc, hpar, hkey, hcs⟩ := h
    set rhs := (g.get? c.key).getD (x.blockOr c.key c.dim) with hrhs
    have hsize : rhs.size = c.dim := size_entry hx hg hc.dim
    obtain ⟨v, hv, hvs, hmul⟩ := Mat.exists_solveUpperTransposed? hc.regular hsize
    obtain ⟨g', hg', hwg', hpush⟩ := exists_pushToParents hx (hg.erase c.key)
      (cs.map Conditional.key).toFinset (z := v) (fun t ht => (hc.height t ht).trans hvs.symm)
      hc.cols fun t ht => List.mem_toFinset.mpr (hpar t ht)
    obtain ⟨z', hz', hzw, hzk, hzp⟩ := ih hcs (g := g') (z := z.insert c.key v) hwg'
    have hcz : ∀ i, z'.coord c.key i = v.get i := by
      intro i
      rw [hzk c.key hkey, BlockVector.coord_insert, if_pos rfl]
    refine ⟨z', ?_, fun k => ?_, fun k hk i => ?_, fun p => ?_⟩
    · have hlt : ¬ rhs.size < c.r.height := by
        rw [hsize, hc.regular.height]
        omega
      rw [solveForwards]
      simp only [← hrhs, if_neg hlt, hv]
      rw [Logged.outcome_bind_ok _ hg']
      exact hz'
    · rw [hzw, BlockVector.widths_insert, KeyMap.get?_insert, hvs, List.map_cons]
      by_cases hk : k = c.key
      · subst hk
        rw [if_neg hkey, if_pos rfl, if_pos List.mem_cons_self, hc.dim]
      · simp only [List.mem_cons, hk, false_or, if_false]
    · rw [List.map_cons, List.mem_cons, not_or] at hk
      rw [hzk k hk.2, BlockVector.coord_insert, if_neg hk.1]
    · have hdiag : ∑ j ∈ range c.dim, current x g c.key j * p c.key j =
          ∑ i ∈ range c.dim, v.get i * ∑ j ∈ range c.dim, c.r.get i j * p c.key j := by
        have h := c.r.sum_transposeMulVec v (p c.key)
        rw [hmul, hc.regular.cols, hc.regular.height] at h
        rw [← h]
        exact sum_congr rfl fun j _ => by rw [hrhs, get_entry]
      have hblock : ∑ i ∈ range c.dim, z'.coord c.key i * c.value p i =
          ∑ i ∈ range c.dim, current x g c.key i * p c.key i +
            ∑ i ∈ range c.dim, v.get i * rowValue c.parents p i := by
        rw [hdiag, ← sum_add_distrib]
        refine sum_congr rfl fun i _ => ?_
        rw [hcz, hc.value_eq, mul_add]
      have herase : pairing dims (cs.map Conditional.key).toFinset (current x (g.erase c.key)) p =
          pairing dims (cs.map Conditional.key).toFinset (current x g) p :=
        pairing_congr (fun k hk _ _ i _ => current_erase_of_ne (fun he => hkey (by
          rw [← he]
          exact List.mem_toFinset.mp hk)) i) fun _ _ _ _ _ _ => rfl
      rw [List.map_cons, List.sum_cons, hzp, hpush, herase, hblock, List.map_cons,
        List.toFinset_cons, pairing_insert (by rwa [List.mem_toFinset]) hc.dim, hvs]
      ring

end BayesNet

end Smoothing
