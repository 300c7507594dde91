import Mathlib
import Smoothing.Proofs.Config.Update

/-!
# When an update of a configuration is refused

An update is applied block by block, in the order of the keys, and each block changes the working
copy. A block is taken (`Config.Takes`) if it belongs to a variable, has the dimension of the value
there and holds ordinary numbers only; otherwise it is refused for one of three causes
(`Config.Refuses`). The blocks before it belong to other variables, so whether it is taken can be
read off the configuration at the beginning.

`Config.retract_takes_or_refuses`: an update is applied if and only if all of its blocks are taken,
and otherwise the cause is that of the smallest key whose block is not.
-/

namespace Smoothing.Config

variable {α : Type} [Scalar α] {c d : Config α} {j k : Key} {v w : Vec α} {e : ProblemError α}

/-- The block belongs to a variable, has the dimension of its value, and its coordinates are
ordinary numbers. -/
def Takes (c : Config α) (k : Key) (v : Vec α) : Prop :=
  ∃ x, c.get? k = some x ∧ v.size = x.dim ∧ ∀ a ∈ v.coords, Scalar.isFinite a = true

/-- Why a block is not taken: its variable is missing, or its length is wrong, or else one of its
coordinates is no ordinary number. -/
inductive Refuses (c : Config α) (k : Key) (v : Vec α) : ProblemError α → Prop
  | missing (h : c.get? k = none) : Refuses c k v (.missingKey k .retraction)
  | size {x : Value α} (hx : c.get? k = some x) (h : v.size ≠ x.dim) :
    Refuses c k v (.group (.tangentDimension x.dim v.size))
  | number {x : Value α} (hx : c.get? k = some x) (hs : v.size = x.dim)
    (h : ∃ a ∈ v.coords, Scalar.isFinite a = false) : Refuses c k v (.group .notFinite)

/-! ### One block -/

theorem allFinite_eq_false_iff :
    v.allFinite = false ↔ ∃ a ∈ v.coords, Scalar.isFinite a = false := by
  unfold Vec.allFinite
  simp

theorem takes_iff : c.Takes k v ↔ ∃ x, c.get? k = some x ∧ v.size = x.dim ∧ v.allFinite := by
  unfold Takes Vec.allFinite
  simp only [List.all_eq_true]

theorem exists_retractOne_iff : (∃ d, c.retractOne k v = .ok d) ↔ c.Takes k v := by
  rw [takes_iff]
  constructor
  · rintro ⟨d, hd⟩
    obtain ⟨x, hx, hs, hf, -⟩ := retractOne_eq_ok_iff.mp hd
    exact ⟨x, hx, hs, hf⟩
  · rintro ⟨x, hx, hs, hf⟩
    exact ⟨_, retractOne_eq_ok_iff.mpr ⟨x, hx, hs, hf, rfl⟩⟩

theorem retract_value_eq_error_iff {x : Value α} {g : GroupError} : x.retract v = .error g ↔
    v.size ≠ x.dim ∧ g = .tangentDimension x.dim v.size ∨
      v.size = x.dim ∧ v.allFinite = false ∧ g = .notFinite := by
  unfold Value.retract
  by_cases hs : v.size = x.dim
  · cases hf : v.allFinite
    · simp [hs, eq_comm]
    · simp [hs]
  · simp only [ne_eq, hs, not_false_eq_true, if_true, Except.error.injEq, true_and,
      false_and, or_false]
    exact eq_comm

theorem refuses_iff : c.Refuses k v e ↔ c.get? k = none ∧ e = .missingKey k .retraction ∨
    ∃ x g, c.get? k = some x ∧ x.retract v = .error g ∧ e = .group g := by
  constructor
  · intro h
    cases h with
    | missing hx => exact .inl ⟨hx, rfl⟩
    | size hx hs => exact .inr ⟨_, _, hx, retract_value_eq_error_iff.mpr (.inl ⟨hs, rfl⟩), rfl⟩
    | number hx hs hf =>
      exact .inr ⟨_, _, hx,
        retract_value_eq_error_iff.mpr (.inr ⟨hs, allFinite_eq_false_iff.mpr hf, rfl⟩), rfl⟩
  · rintro (⟨hx, rfl⟩ | ⟨x, g, hx, hg, rfl⟩)
    · exact .missing hx
    · rcases retract_value_eq_error_iff.mp hg with ⟨hs, rfl⟩ | ⟨hs, hf, rfl⟩
      · exact .size hx hs
      · exact .number hx hs (allFinite_eq_false_iff.mp hf)

/-- **The update of one variable fails with the cause for which its block is refused.** -/
theorem retractOne_eq_error_iff : c.retractOne k v = .error e ↔ c.Refuses k v e := by
  rw [refuses_iff]
  unfold retractOne valueAt
  cases hx : c.get? k with
  | none => simp [bind, Except.bind, eq_comm]
  | some x => cases hy : x.retract v <;> simp [bind, Except.bind, hy, eq_comm]

theorem takes_congr (h : c.get? k = d.get? k) : c.Takes k v ↔ d.Takes k v := by
  unfold Takes
  rw [h]

theorem Refuses.congr (h : c.get? k = d.get? k) (hc : c.Refuses k v e) : d.Refuses k v e := by
  cases hc with
  | missing hx => exact .missing (h.symm.trans hx)
  | size hx hs => exact .size (h.symm.trans hx) hs
  | number hx hs hf => exact .number (h.symm.trans hx) hs hf

/-! ### All blocks -/

/-- A list of blocks stops at the first one that is refused. The blocks before it have changed the
values of their own variables only. -/
theorem retract_go_eq_error_iff {es : List (Key × Vec α)} (hes : es.Pairwise fun a b => a.1 < b.1) :
    retract.go c es = .error e ↔ ∃ before k v after, es = before ++ (k, v) :: after ∧
      (∀ b ∈ before, c.Takes b.1 b.2) ∧ c.Refuses k v e := by
  induction es generalizing c with
  | nil =>
    constructor
    · intro h
      cases h
    · rintro ⟨before, k, v, after, h, -⟩
      simp at h
  | cons b es ih =>
    obtain ⟨j, w⟩ := b
    obtain ⟨hj, hes⟩ := List.pairwise_cons.mp hes
    have hstep : retract.go c ((j, w) :: es) = .error e ↔
        c.retractOne j w = .error e ∨ ∃ c', c.retractOne j w = .ok c' ∧
        retract.go c' es = .error e := by
      simp only [retract.go, bind, Except.bind]
      cases c.retractOne j w <;> simp
    -- the rest of the list does not see that the value of the first variable is new
    have hlater : ∀ y, ∀ b ∈ es, KeyMap.get? (c.insert j y) b.1 = c.get? b.1 := fun y b hb =>
      KeyMap.get?_insert_of_ne _ _ (Key.ne_of_lt (hj b hb)).symm
    rw [hstep, retractOne_eq_error_iff]
    constructor
    · rintro (h | ⟨c', hc', h⟩)
      · exact ⟨[], j, w, es, rfl, by simp, h⟩
      · obtain ⟨x, hx, hs, hf, rfl⟩ := retractOne_eq_ok_iff.mp hc'
        obtain ⟨before, k, v, after, rfl, hbefore, hrefused⟩ := (ih hes).mp h
        refine ⟨(j, w) :: before, k, v, after, rfl, ?_, ?_⟩
        · rw [List.forall_mem_cons]
          refine ⟨takes_iff.mpr ⟨x, hx, hs, hf⟩, fun b hb => ?_⟩
          exact (takes_congr (hlater _ b (List.mem_append_left _ hb))).mp (hbefore b hb)
        · exact hrefused.congr (hlater _ (k, v) (by simp))
    · rintro ⟨_ | ⟨b, before⟩, k, v, after, hsplit, hbefore, hrefused⟩
      · obtain ⟨hfirst, -⟩ := List.cons.inj hsplit
        cases hfirst
        exact .inl hrefused
      · obtain ⟨hfirst, rfl⟩ := List.cons.inj hsplit
        cases hfirst
        rw [List.forall_mem_cons] at hbefore
        obtain ⟨c', hc'⟩ := exists_retractOne_iff.mpr hbefore.1
        refine .inr ⟨c', hc', (ih hes).mpr ⟨before, k, v, after, rfl, fun b hb => ?_, ?_⟩⟩
        all_goals obtain ⟨x, -, -, -, rfl⟩ := retractOne_eq_ok_iff.mp hc'
        · exact (takes_congr (hlater _ b (List.mem_append_left _ hb))).mpr (hbefore.2 b hb)
        · exact hrefused.congr (hlater _ (k, v) (by simp)).symm

omit [Scalar α] in
theorem mem_left_iff_lt {before after : List (Key × Vec α)} {b : Key × Vec α}
    (hsorted : (before ++ (k, v) :: after).Pairwise fun a b => a.1 < b.1)
    (hb : b ∈ before ++ (k, v) :: after) : b ∈ before ↔ b.1 < k := by
  obtain ⟨-, hright, hcross⟩ := List.pairwise_append.mp hsorted
  refine ⟨fun h => hcross b h (k, v) List.mem_cons_self, fun hlt => ?_⟩
  rcases List.mem_append.mp hb with h | h
  · exact h
  · rcases List.mem_cons.mp h with rfl | h
    · exact absurd hlt (Key.lt_irrefl k)
    · exact absurd hlt (Key.lt_asymm ((List.pairwise_cons.mp hright).1 b h))

/-- **An update fails with the cause of the smallest key whose block is refused.** -/
theorem retract_eq_error_iff {δ : BlockVector α} : c.retract δ = .error e ↔
    ∃ k v, δ.get? k = some v ∧ c.Refuses k v e ∧ ∀ j w, δ.get? j = some w → j < k →
    c.Takes j w := by
  unfold retract
  rw [retract_go_eq_error_iff δ.sorted]
  simp only [KeyMap.get?_eq_some_iff]
  constructor
  · rintro ⟨before, k, v, after, hsplit, hbefore, hrefused⟩
    refine ⟨k, v, by simp [hsplit], hrefused, fun j w hw hjk => ?_⟩
    exact hbefore (j, w) ((mem_left_iff_lt (hsplit ▸ δ.sorted) (hsplit ▸ hw)).mpr hjk)
  · rintro ⟨k, v, hv, hrefused, hsmaller⟩
    obtain ⟨before, after, hsplit⟩ := List.append_of_mem hv
    refine ⟨before, k, v, after, hsplit, fun b hb => ?_, hrefused⟩
    have hmem : b ∈ before ++ (k, v) :: after := List.mem_append_left _ hb
    exact hsmaller b.1 b.2 (hsplit ▸ hmem) ((mem_left_iff_lt (hsplit ▸ δ.sorted) hmem).mp hb)

theorem exists_retract_iff {δ : BlockVector α} :
    (∃ d, c.retract δ = .ok d) ↔ ∀ k v, δ.get? k = some v → c.Takes k v := by
  simp only [retract_eq_ok_iff, takes_iff]
  constructor
  · rintro ⟨d, hfits, hfinite, -⟩ k v hv
    obtain ⟨x, hx, hs⟩ := hfits k v hv
    exact ⟨x, hx, hs, hfinite k v hv⟩
  · intro h
    refine ⟨_, fun k v hv => ?_, fun k v hv => ?_, rfl⟩
    · obtain ⟨x, hx, hs, -⟩ := h k v hv
      exact ⟨x, hx, hs⟩
    · obtain ⟨-, -, -, hf⟩ := h k v hv
      exact hf

/-- **An update is applied if and only if each of its blocks is taken.** Then the variables stay the
same, those without a block keep their values, and every other one has its value updated, within its
group. An update that is not applied fails with the cause of the smallest key whose block is
refused. -/
theorem retract_takes_or_refuses (c : Config α) (δ : BlockVector α) :
    ((∃ d, c.retract δ = .ok d) ↔ ∀ k v, δ.get? k = some v → c.Takes k v) ∧
      (∀ d, c.retract δ = .ok d → KeyMap.keys d = KeyMap.keys c ∧
        (∀ k, δ.get? k = none → d.get? k = c.get? k) ∧
        ∀ k v, δ.get? k = some v → ∃ x y, c.get? k = some x ∧ x.retract v = .ok y ∧
          d.get? k = some y ∧ y.manifold = x.manifold ∧ y.dim = x.dim) ∧
      ∀ e, c.retract δ = .error e ↔ ∃ k v, δ.get? k = some v ∧ c.Refuses k v e ∧
        ∀ j w, δ.get? j = some w → j < k → c.Takes j w := by
  refine ⟨exists_retract_iff, fun d hd => ?_, fun e => retract_eq_error_iff⟩
  obtain ⟨hfits, hfinite, rfl⟩ := retract_eq_ok_iff.mp hd
  refine ⟨KeyMap.keys_map _ _, fun k hk => ?_, fun k v hv => ?_⟩
  · simp [get?_updated, hk]
  · obtain ⟨x, hx, hs⟩ := hfits k v hv
    have hy : x.retract v = .ok (x.plus v) := Value.retract_eq_ok_iff.mpr ⟨hs, hfinite k v hv, rfl⟩
    obtain ⟨hmanifold, hdim⟩ := Prod.mk.inj (Value.shape_retract hy)
    exact ⟨x, x.plus v, hx, hy, by simp [get?_updated, hx, hv], hmanifold, hdim⟩

end Smoothing.Config
