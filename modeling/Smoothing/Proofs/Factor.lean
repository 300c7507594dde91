import Mathlib
import Smoothing.Factor.Evaluate
import Smoothing.Proofs.Linear.Factor

/-!
# Linearized factors

A factor is linearized if it has values for its variables, a residual and a Jacobian of the right
sizes, and a key for each of its blocks (`Factor.linearize_eq_ok_iff`). The linear factor then has
the keys of the factor, in order, and the block of a key is as wide as the tangent space at its
value (`Factor.exists_of_linearize`). No factor misses a value where its variables have values,
except by an evaluation of its own (`Factor.custom_of_missingKey`).
-/

namespace Smoothing

variable {α : Type}

theorem Evaluated.bind_eq_ok {ε β γ : Type} {x : Except ε β} {f : β → Except ε γ} {c : γ} :
    (x >>= f) = .ok c ↔ ∃ b, x = .ok b ∧ f b = .ok c := by
  cases x <;> simp [bind, Except.bind]

theorem Evaluated.bind_eq_error {ε β γ : Type} {x : Except ε β} {f : β → Except ε γ} {e : ε} :
    (x >>= f) = .error e ↔ x = .error e ∨ ∃ b, x = .ok b ∧ f b = .error e := by
  cases x <;> simp [bind, Except.bind]

theorem exists_forall₂_iff {β γ : Type} {R : β → γ → Prop} {bs : List β} :
    (∃ cs, List.Forall₂ R bs cs) ↔ ∀ b ∈ bs, ∃ c, R b c := by
  induction bs with
  | nil => simp
  | cons b bs ih =>
    rw [List.forall_mem_cons, ← ih]
    simp only [List.forall₂_cons_left_iff]
    constructor
    · rintro ⟨_, c, cs, hc, hcs, rfl⟩
      exact ⟨⟨c, hc⟩, cs, hcs⟩
    · rintro ⟨⟨c, hc⟩, cs, hcs⟩
      exact ⟨_, c, cs, hc, hcs, rfl⟩

namespace Factor

/-! ### Values -/

theorem lookUp_eq_ok_iff {c : Config α} {ks : List Key} {xs : List (Value α)} :
    lookUp c ks = .ok xs ↔ List.Forall₂ (fun k x => c.get? k = some x) ks xs := by
  induction ks generalizing xs with
  | nil => simp [lookUp, eq_comm]
  | cons k ks ih =>
    rw [lookUp, List.forall₂_cons_left_iff]
    cases hk : c.get? k with
    | none => simp
    | some x =>
      simp only [Evaluated.bind_eq_ok, ih, pure, Except.pure, Except.ok.injEq, Option.some.injEq]
      constructor
      · rintro ⟨vs, hvs, rfl⟩
        exact ⟨x, vs, rfl, hvs, rfl⟩
      · rintro ⟨_, vs, rfl, hvs, rfl⟩
        exact ⟨vs, hvs, rfl⟩

/-! ### Blocks -/

theorem length_splitColumns (m : Mat α) (start : ℕ) (ws : List ℕ) :
    (splitColumns m start ws).length = ws.length := by
  induction ws generalizing start with
  | nil => rfl
  | cons w ws ih => rw [splitColumns, List.length_cons, ih, List.length_cons]

theorem cols_splitColumns {m : Mat α} {start : ℕ} {ws : List ℕ}
    (h : m.cols = start + ws.foldr (· + ·) 0) : (splitColumns m start ws).map Mat.cols = ws := by
  induction ws generalizing start with
  | nil => rfl
  | cons w ws ih =>
    rw [List.foldr_cons] at h
    have hw : min w (m.cols - start) = w := by omega
    rw [splitColumns, List.map_cons, ih (by omega)]
    exact congrArg (· :: ws) hw

variable [Scalar α]

theorem checkResidual_eq_ok_iff {e : Vec α} {dim : ℕ} {u : Unit} :
    checkResidual e dim = .ok u ↔ e.size = dim ∧ e.allFinite := by
  unfold checkResidual
  by_cases hs : e.size = dim <;> cases hf : e.allFinite <;> simp [hs]

/-- **When a factor is linearized**: it has values and a residual and a Jacobian of the right sizes
at them, and its blocks go with its keys. -/
theorem linearize_eq_ok_iff {f : Factor α} {c : Config α} {g : GaussianFactor α} :
    f.linearize c = .ok g ↔ ∃ xs e jacobian, List.Forall₂ (fun k x => c.get? k = some x) f.keys xs ∧
      f.evaluate xs true = .ok ⟨e, some jacobian⟩ ∧ (e.size = f.dimension ∧ e.allFinite) ∧
        (jacobian.height = f.dimension ∧ jacobian.cols = (xs.map Value.dim).foldr (· + ·) 0) ∧
        jacobian.allFinite ∧
        GaussianFactor.ofBlocks? f.keys
          (splitColumns (f.noise.whitenJacobian jacobian) 0 (xs.map Value.dim))
          (-f.noise.whiten e) = .ok g := by
  unfold linearize values
  simp only [Evaluated.bind_eq_ok, lookUp_eq_ok_iff]
  constructor
  · rintro ⟨xs, hxs, ⟨e, _ | jacobian⟩, hr, h⟩
    · cases h
    · simp only [Evaluated.bind_eq_ok, checkResidual_eq_ok_iff] at h
      obtain ⟨-, he, h⟩ := h
      split_ifs at h with hshape hfinite
      rw [not_or, not_not, not_not] at hshape
      refine ⟨xs, e, jacobian, hxs, hr, he, hshape, by simpa using hfinite, ?_⟩
      split at h
      · next hg =>
        cases h
        exact hg
      · cases h
  · rintro ⟨xs, e, jacobian, hxs, hr, he, hshape, hfinite, hg⟩
    refine ⟨xs, hxs, ⟨e, some jacobian⟩, hr, ?_⟩
    simp only [Evaluated.bind_eq_ok, checkResidual_eq_ok_iff]
    refine ⟨(), he, ?_⟩
    rw [if_neg (by simp [hshape]), hfinite, hg]
    rfl

/-- **A linearized factor** has the keys of the factor, and blocks as wide as the tangent spaces at
their values. -/
theorem exists_of_linearize {f : Factor α} {c : Config α} {g : GaussianFactor α}
    (h : f.linearize c = .ok g) :
    g.keys = f.keys ∧ ∀ t ∈ g.terms, ∃ x, c.get? t.1 = some x ∧ t.2.cols = x.dim := by
  obtain ⟨xs, e, jacobian, hxs, -, -, ⟨-, hcols⟩, -, hg⟩ := linearize_eq_ok_iff.mp h
  obtain ⟨hlen, hterms, -⟩ := GaussianFactor.ofBlocks?_eq_ok_iff.mp hg
  have hwidths :=
    cols_splitColumns (m := f.noise.whitenJacobian jacobian) (hcols.trans (Nat.zero_add _).symm)
  refine ⟨?_, fun t ht => ?_⟩
  · rw [GaussianFactor.keys, hterms, List.map_fst_zip hlen.le]
  · rw [hterms] at ht
    obtain ⟨i, hi, rfl⟩ := List.getElem_of_mem ht
    rw [List.length_zip] at hi
    have hxi : i < xs.length := by
      rw [← hxs.length_eq]
      omega
    have hwidth := congrArg (·[i]?) hwidths
    simp only [List.getElem?_map, List.getElem?_eq_getElem hxi,
      List.getElem?_eq_getElem (lt_of_lt_of_le hi (min_le_right _ _)), Option.map_some,
      Option.some.injEq] at hwidth
    rw [List.getElem_zip]
    exact ⟨xs[i], hxs.get (by omega) hxi, hwidth⟩

/-! ### Missing values -/

omit [Scalar α] in
theorem exists_values {f : Factor α} {c : Config α} (h : ∀ k ∈ f.keys, ∃ x, c.get? k = some x) :
    ∃ xs, f.values c = .ok xs ∧ xs.length = f.keys.length := by
  obtain ⟨xs, hxs⟩ := exists_forall₂_iff.mpr h
  exact ⟨xs, lookUp_eq_ok_iff.mpr hxs, hxs.length_eq.symm⟩

section Missing
variable {f : Factor α} {c : Config α} {xs : List (Value α)} {k : Key}

theorem checkResidual_ne_missingKey {e : Vec α} {dim : ℕ} :
    checkResidual e dim ≠ .error (.cause (.missingKey k)) := by
  unfold checkResidual
  split_ifs <;> simp

theorem deviation_ne_missingKey {j : Key} {target x : Value α} :
    target.deviation j x ≠ .error (.cause (.missingKey k)) := by
  unfold Value.deviation
  split
  · simp
  · next e _ => cases e <;> simp [FactorError.ofGroup]

/-- A factor that is given as many values as it has variables misses none, unless its evaluation is
its own. -/
theorem exists_of_evaluate_missingKey {wantJacobian : Bool} (hlen : xs.length = f.keys.length)
    (h : f.evaluate xs wantJacobian = .error (.cause (.missingKey k))) : ∃ g, f = .custom g := by
  cases f with
  | prior f =>
    obtain ⟨x, rfl⟩ := List.length_eq_one_iff.mp hlen
    rcases Evaluated.bind_eq_error.mp h with h | ⟨e, -, h⟩
    · exact absurd h deviation_ne_missingKey
    · cases h
  | between f =>
    change f.evaluate xs wantJacobian = _ at h
    unfold BetweenFactor.evaluate at h
    split at h
    · split at h
      · split_ifs at h <;> cases h
      · cases h
      · cases h
      · cases h
      · cases h
      · split_ifs at h <;> cases h
    · cases h
  | equality f =>
    obtain ⟨x, rfl⟩ := List.length_eq_one_iff.mp hlen
    rcases Evaluated.bind_eq_error.mp h with h | ⟨e, -, h⟩
    · exact absurd h deviation_ne_missingKey
    · split at h <;> cases h
  | function f =>
    obtain ⟨x, rfl⟩ := List.length_eq_one_iff.mp hlen
    change f.evaluate [x] wantJacobian = _ at h
    unfold FunctionFactor.evaluate at h
    split at h
    · next hx => cases hx
    · split at h
      · cases h
      · split_ifs at h
        · cases h
        · split at h <;> cases h
    · cases h
  | custom f => exact ⟨f, rfl⟩

variable (hxs : f.values c = .ok xs)
include hxs

theorem evaluate_of_linearize_missingKey (h : f.linearize c = .error (.cause (.missingKey k))) :
    f.evaluate xs true = .error (.cause (.missingKey k)) := by
  unfold linearize at h
  rw [hxs] at h
  change (f.evaluate xs true >>= _) = _ at h
  rcases Evaluated.bind_eq_error.mp h with h | ⟨r, -, h⟩
  · exact h
  · split at h
    · cases h
    · rcases Evaluated.bind_eq_error.mp h with h | ⟨u, -, h⟩
      · exact absurd h checkResidual_ne_missingKey
      · dsimp only at h
        split_ifs at h
        · cases h
        · cases h
        · split at h <;> cases h

theorem evaluate_of_error_missingKey (hhard : ∀ g, f ≠ .equality g)
    (h : f.error c = .error (.cause (.missingKey k))) :
    f.evaluate xs false = .error (.cause (.missingKey k)) := by
  have hresidual : f.unwhitened c = .error (.cause (.missingKey k)) := by
    unfold error at h
    split at h
    · next g => exact absurd rfl (hhard g)
    · rcases Evaluated.bind_eq_error.mp h with h | ⟨e, -, h⟩
      · rcases Evaluated.bind_eq_error.mp h with h | ⟨e, -, h⟩
        · exact h
        · cases h
      · cases h
  unfold unwhitened at hresidual
  rw [hxs] at hresidual
  change (f.evaluate xs false >>= _) = _ at hresidual
  rcases Evaluated.bind_eq_error.mp hresidual with h | ⟨r, -, h⟩
  · exact h
  · rcases Evaluated.bind_eq_error.mp h with h | ⟨u, -, h⟩
    · exact absurd h checkResidual_ne_missingKey
    · cases h

end Missing

/-- **No factor misses a value** where its variables have values, unless its own evaluation says
so. -/
theorem custom_of_missingKey {f : Factor α} {c : Config α} {k : Key}
    (hc : ∀ k ∈ f.keys, ∃ x, c.get? k = some x)
    (h : f.linearize c = .error (.cause (.missingKey k)) ∨
      f.error c = .error (.cause (.missingKey k))) :
    ∃ g xs wantJacobian, f = .custom g ∧ xs.length = g.keys.length ∧
      g.evaluate xs wantJacobian = .error (.cause (.missingKey k)) := by
  obtain ⟨xs, hxs, hlen⟩ := exists_values hc
  rcases h with h | h
  · have he := evaluate_of_linearize_missingKey hxs h
    obtain ⟨g, rfl⟩ := exists_of_evaluate_missingKey hlen he
    exact ⟨g, xs, true, rfl, hlen, he⟩
  · by_cases hhard : ∃ g, f = .equality g
    · obtain ⟨g, rfl⟩ := hhard
      obtain ⟨x, hx⟩ := hc g.key List.mem_cons_self
      simp only [error, hx] at h
      rcases Evaluated.bind_eq_error.mp h with h | ⟨e, -, h⟩
      · exact absurd h deviation_ne_missingKey
      · split_ifs at h <;> cases h
    · have he := evaluate_of_error_missingKey hxs (fun g hg => hhard ⟨g, hg⟩) h
      obtain ⟨g, rfl⟩ := exists_of_evaluate_missingKey hlen he
      exact ⟨g, xs, false, rfl, hlen, he⟩

/-! ### Errors -/

theorem error_eq_whitened {f : Factor α} (hf : ∀ g, f ≠ .equality g) (c : Config α) :
    f.error c = (f.whitened c >>= fun e => .ok (0.5 * e.normSq)) := by
  cases f with
  | equality g => exact absurd rfl (hf g)
  | prior g => rfl
  | between g => rfl
  | function g => rfl
  | custom g => rfl

end Factor

/-- The constraint is satisfied by the value of its variable. -/
def EqualityFactor.HoldsAt [Scalar α] (f : EqualityFactor α) (c : Config α) : Prop :=
  ∃ x e, c.get? f.key = some x ∧ f.feasible.deviation f.key x = .ok e ∧ f.isFeasible e = true

end Smoothing
