import Mathlib
import Smoothing.EliminationOrder
import Smoothing.Proofs.BlockVector
import Smoothing.Proofs.Config
import Smoothing.Proofs.Scalar.Exact

/-!
# Evaluating the factors of a problem

All factors of a problem are evaluated, or the first one that fails decides
(`FactorGraph.outcome_each_eq_ok`, `FactorGraph.exists_of_each_eq_error`). So an error of the
problem is the sum of the errors of its factors (`FactorGraph.exists_errors`), and a linearization
that fails for a factor fails in that factor (`FactorGraph.exists_of_linearize_eq_error`). Over
exact scalars errors are costs: `FactorGraph.isCost_error`.
-/

namespace Smoothing

variable {α : Type}

/-! ### The factors in turn -/

namespace FactorGraph

variable {β : Type} {eval : Factor α → Evaluated α β} {fs : List (Factor α)}

theorem outcome_atFactor_eq_ok {i : ℕ} {r : Evaluated α β} {b : β} :
    (atFactor i r).outcome = .ok b ↔ r = .ok b := by
  rcases r with (e | _) | a <;> simp [atFactor, Logged.failWith]

theorem outcome_each_eq_ok {i : ℕ} {bs : List β} :
    (each eval i fs).outcome = .ok bs ↔ List.Forall₂ (fun f b => eval f = .ok b) fs bs := by
  induction fs generalizing i bs with
  | nil => simp [each, eq_comm]
  | cons f fs ih =>
    simp only [each, Logged.outcome_bind_eq_ok, outcome_atFactor_eq_ok, ih, Logged.outcome_pure,
      Except.ok.injEq, List.forall₂_cons_left_iff]
    constructor
    · rintro ⟨b, hb, bs', hbs, rfl⟩
      exact ⟨b, bs', hb, hbs, rfl⟩
    · rintro ⟨b, bs', hb, hbs, rfl⟩
      exact ⟨b, hb, bs', hbs, rfl⟩

theorem exists_of_each_eq_error {i : ℕ} {e : ProblemError α}
    (h : (each eval i fs).outcome = .error (.cause e)) :
    ∃ n f e', e = .factor (i + n) e' ∧ fs[n]? = some f ∧ eval f = .error (.cause e') := by
  induction fs generalizing i with
  | nil => cases h
  | cons f fs ih =>
    rcases Logged.outcome_bind_eq_error.mp h with h | ⟨b, -, h⟩
    · rcases hf : eval f with (e' | _) | b <;> rw [hf] at h <;> cases h
      exact ⟨0, f, e', rfl, rfl, hf⟩
    · rcases Logged.outcome_bind_eq_error.mp h with h | ⟨bs, -, h⟩
      · obtain ⟨n, f', e', rfl, hn, hf'⟩ := ih h
        exact ⟨n + 1, f', e', by rw [Nat.add_right_comm, Nat.add_assoc], by simpa using hn, hf'⟩
      · cases h

theorem validate_eq_ok_iff {g : FactorGraph α} {c : Config α} :
    (g.validate c).outcome = .ok () ↔ ∀ f ∈ g.factors, ∀ k ∈ f.keys, ∃ x, c.get? k = some x := by
  have hmissing : ∀ (fs : List (Factor α)) (n : ℕ),
      missing? c n fs = none ↔ ∀ f ∈ fs, ∀ k ∈ f.keys, ∃ x, c.get? k = some x := by
    intro fs
    induction fs with
    | nil => simp [missing?]
    | cons f fs ih =>
      intro n
      rw [missing?, List.forall_mem_cons, ← ih (n + 1)]
      have hfind : (f.keys.find? fun k => !c.contains k) = none ↔
          ∀ k ∈ f.keys, ∃ x, c.get? k = some x := by
        simp [List.find?_eq_none, KeyMap.contains, Option.ne_none_iff_exists']
      rw [← hfind]
      cases f.keys.find? fun k => !c.contains k <;> simp
  rw [← hmissing g.factors 0]
  unfold validate
  cases missing? c 0 g.factors <;> simp [Logged.failWith]

theorem validate_of_shape {g : FactorGraph α} {c d : Config α} (h : d.shape = c.shape)
    (hc : (g.validate c).outcome = .ok ()) : (g.validate d).outcome = .ok () := by
  rw [validate_eq_ok_iff] at hc ⊢
  intro f hf k hk
  obtain ⟨x, hx⟩ := hc f hf k hk
  have hd : (d.get? k).map Value.shape = some x.shape := by
    rw [← Config.get?_shape, h, Config.get?_shape, hx, Option.map_some]
  obtain ⟨y, hy, -⟩ := Option.map_eq_some_iff.mp hd
  exact ⟨y, hy⟩

theorem outcome_validate_ne_factor {g : FactorGraph α} {c : Config α} {i : ℕ} {e : FactorError α} :
    ¬ (g.validate c).outcome = .error (.cause (.factor i e)) := by
  have hmissing : ∀ (fs : List (Factor α)) (n : ℕ), missing? c n fs ≠ some (.factor i e) := by
    intro fs
    induction fs with
    | nil => intro n h; cases h
    | cons f fs ih =>
      intro n h
      rw [missing?] at h
      split at h
      · cases h
      · exact ih _ h
  intro h
  unfold validate at h
  split at h
  · next e' he =>
    simp only [Logged.failWith, Except.error.injEq, Stop.cause.injEq] at h
    exact hmissing _ _ (he.trans (congrArg some h))
  · cases h

end FactorGraph

/-! ### Orders of the variables -/

/-- **A validated order is an order of exactly the given keys.** -/
theorem EliminationOrder.perm_of_validate {o : EliminationOrder} {keys : KeySet}
    (h : (o.validate keys : FactorGraph.Run α Unit).outcome = .ok ()) : o.keys.Perm keys.keys := by
  unfold validate at h
  split at h
  · cases h
  · next hmissing =>
    split at h
    · cases h
    · next hextra =>
      refine (List.perm_ext_iff_of_nodup o.nodup keys.nodup_keys).mpr fun k =>
        ⟨fun hk => ?_, fun hk => ?_⟩
      · have := List.find?_eq_none.mp hextra k hk
        simpa [KeyMap.mem_keys, KeyMap.contains, Option.isSome_iff_ne_none] using this
      · have := List.find?_eq_none.mp hmissing k hk
        simpa [EliminationOrder.contains] using this

theorem EliminationOrder.outcome_validate_of_perm {o : EliminationOrder} {keys : KeySet}
    (h : o.keys.Perm keys.keys) : (o.validate keys : FactorGraph.Run α Unit).outcome = .ok () := by
  have hmissing : keys.keys.find? (fun k => !o.contains k) = none :=
    List.find?_eq_none.mpr fun k hk => by simp [EliminationOrder.contains, h.mem_iff.mpr hk]
  have hextra : o.keys.find? (fun k => !keys.contains k) = none :=
    List.find?_eq_none.mpr fun k hk => by
      simp [KeyMap.contains, KeyMap.mem_keys.mp (h.mem_iff.mp hk)]
  unfold validate
  rw [hmissing]
  dsimp only
  rw [hextra]
  rfl

/-! ### Errors and linearizations -/

variable [Scalar α]

namespace FactorGraph

variable {g : FactorGraph α} {c : Config α}

/-- **A problem has an error if it has values and every factor has one.** -/
theorem error_eq_ok_iff {e : α} :
    (g.error c).outcome = .ok e ↔ (g.validate c).outcome = .ok () ∧
      ∃ errors, List.Forall₂ (fun f b => f.error c = .ok b) g.factors errors ∧
      e = Scalar.sum errors := by
  simp only [error, Logged.outcome_bind_eq_ok, outcome_each_eq_ok, Logged.outcome_pure,
    Except.ok.injEq]
  constructor
  · rintro ⟨_, hv, errors, h, rfl⟩
    exact ⟨hv, errors, h, rfl⟩
  · rintro ⟨hv, errors, h, rfl⟩
    exact ⟨(), hv, errors, h, rfl⟩

/-- **The error of a problem is the sum of the errors of its factors.** -/
theorem exists_errors {e : α} (h : (g.error c).outcome = .ok e) :
    ∃ errors, List.Forall₂ (fun f b => f.error c = .ok b) g.factors errors ∧
    e = Scalar.sum errors :=
  (error_eq_ok_iff.mp h).2

/-- **A problem is linearized if it has values and every factor is linearized.** -/
theorem linearize_eq_ok_iff {linear : GaussianGraph α} :
    (g.linearize c).outcome = .ok linear ↔ (g.validate c).outcome = .ok () ∧
      List.Forall₂ (fun f l => f.linearize c = .ok l) g.factors linear.factors := by
  simp only [linearize, Logged.outcome_bind_eq_ok, outcome_each_eq_ok, Logged.outcome_pure,
    Except.ok.injEq]
  constructor
  · rintro ⟨_, hv, factors, h, rfl⟩
    exact ⟨hv, h⟩
  · rintro ⟨hv, h⟩
    exact ⟨(), hv, linear.factors, h, rfl⟩

theorem exists_of_mem_linearize {linear : GaussianGraph α}
    (h : (g.linearize c).outcome = .ok linear) {l : GaussianFactor α} (hl : l ∈ linear.factors) :
    ∃ f ∈ g.factors, f.linearize c = .ok l := by
  have hfactors := (linearize_eq_ok_iff.mp h).2
  obtain ⟨i, hi, rfl⟩ := List.getElem_of_mem hl
  have hi' : i < g.factors.length := by rwa [hfactors.length_eq]
  exact ⟨g.factors[i], List.getElem_mem hi', hfactors.get hi' hi⟩

section Accepted
variable (hv : (g.validate c).outcome = .ok ()) {e : ProblemError α}
include hv

/-- A problem with values that has no error fails in a factor. -/
theorem exists_factor_of_error_eq_error (h : (g.error c).outcome = .error (.cause e)) :
    ∃ i f e', e = .factor i e' ∧ g.factors[i]? = some f ∧ f.error c = .error (.cause e') := by
  rw [error, Logged.outcome_bind_ok _ hv] at h
  rcases Logged.outcome_bind_eq_error.mp h with h | ⟨_, -, h⟩
  · obtain ⟨n, f, e', rfl, hf⟩ := exists_of_each_eq_error h
    exact ⟨n, f, e', by rw [Nat.zero_add], hf⟩
  · cases h

theorem exists_factor_of_linearize_eq_error (h : (g.linearize c).outcome = .error (.cause e)) :
    ∃ i f e', e = .factor i e' ∧ g.factors[i]? = some f ∧ f.linearize c = .error (.cause e') := by
  rw [linearize, Logged.outcome_bind_ok _ hv] at h
  rcases Logged.outcome_bind_eq_error.mp h with h | ⟨_, -, h⟩
  · obtain ⟨n, f, e', rfl, hf⟩ := exists_of_each_eq_error h
    exact ⟨n, f, e', by rw [Nat.zero_add], hf⟩
  · cases h

end Accepted

theorem exists_of_linearize_eq_error {i : ℕ} {e : FactorError α}
    (h : (g.linearize c).outcome = .error (.cause (.factor i e))) :
    ∃ f, g.factors[i]? = some f ∧ f.linearize c = .error (.cause e) := by
  rcases Logged.outcome_bind_eq_error.mp h with hv | ⟨⟨⟩, hv, -⟩
  · exact absurd hv outcome_validate_ne_factor
  · obtain ⟨j, f, e', he, hf⟩ := exists_factor_of_linearize_eq_error hv h
    cases he
    exact ⟨f, hf⟩

end FactorGraph

/-! ### Errors are costs -/

section Exact

variable {𝕜 : Type} [Field 𝕜] [LinearOrder 𝕜] [IsStrictOrderedRing 𝕜] [exact : ExactScalar 𝕜 α]
include exact

theorem Factor.isCost_error {f : Factor α} {c : Config α} {e : α} (h : f.error c = .ok e) :
    IsCost e := by
  have hhalf : ∀ r : Evaluated α (Vec α), (do let v ← r; return 0.5 * v.normSq) = .ok e →
      IsCost e := by
    intro r hr
    cases r with
    | error s => cases hr
    | ok v =>
      cases hr
      exact (IsCost.normSq v).half
  cases f with
  | equality f =>
    simp only [Factor.error] at h
    split at h
    · cases h
    · next x _ =>
      simp only [EqualityFactor.error, bind, Except.bind] at h
      split at h
      · cases h
      · next v _ =>
        split_ifs at h with hallow hfeasible
        · cases h
          exact (IsCost.normSq _).half
        · cases h
          exact .zero
        · cases h
          exact .infinity
  | prior f => exact hhalf _ h
  | between f => exact hhalf _ h
  | function f => exact hhalf _ h
  | custom f => exact hhalf _ h

theorem FactorGraph.isCost_error {g : FactorGraph α} {c : Config α} {e : α}
    (h : (g.error c).outcome = .ok e) : IsCost e := by
  obtain ⟨errors, herrors, rfl⟩ := exists_errors h
  refine IsCost.sum fun b hb => ?_
  obtain ⟨i, hi, rfl⟩ := List.getElem_of_mem hb
  exact Factor.isCost_error (herrors.get (by rwa [herrors.length_eq]) hi)

end Exact

end Smoothing
