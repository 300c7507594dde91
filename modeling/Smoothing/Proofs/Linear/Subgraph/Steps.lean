import Mathlib
import Smoothing.Linear.Subgraph
import Smoothing.Proofs.Real

/-!
# The states of conjugate gradients

The iteration is followed step by step, whatever the threshold is: `Iterate.after` is the state
after a number of steps, as long as the steps succeed. A run ends in one of these states, and
without convergence in the last one (`Iterate.exists_after_of_run`).

A state remembers the solution with the least norm of a residual. After every step this is the least
of all states up to then (`Iterate.isBest_of_after`), although the norms of the residuals need not
decrease.
-/

namespace Smoothing

namespace SubgraphSolver

namespace Iterate

section Steps
variable {α : Type} [Scalar α] {operator : BlockVector α → LinearRun α (BlockVector α)}
  {s s₀ t : Iterate α}

theorem exists_image_of_step (h : (s.step operator).outcome = .ok t) :
    ∃ image, (operator s.direction).outcome = .ok image ∧ ¬ s.direction.dot image ≤ 0 ∧
      t = s.next image (s.direction.dot image) := by
  obtain ⟨image, himage, h⟩ := Logged.outcome_bind_eq_ok.mp h
  dsimp only at h
  split_ifs at h with hcurv
  · exact absurd h LinearError.outcome_stop_ne_ok
  · cases h
    refine ⟨image, himage, fun hle => hcurv ?_, rfl⟩
    rw [decide_eq_true hle, Bool.or_true]

/-- The state after some steps. -/
def after (operator : BlockVector α → LinearRun α (BlockVector α)) (s : Iterate α) :
    ℕ → LinearRun α (Iterate α)
  | 0 => pure s
  | n + 1 => do
    let t ← after operator s n
    t.step operator

theorem after_succ_eq_ok {n : ℕ} : (after operator s (n + 1)).outcome = .ok t ↔
    ∃ u, (after operator s n).outcome = .ok u ∧ (u.step operator).outcome = .ok t :=
  Logged.outcome_bind_eq_ok

theorem exists_after_of_le {m n : ℕ} (hmn : m ≤ n) (h : (after operator s n).outcome = .ok t) :
    ∃ u, (after operator s m).outcome = .ok u := by
  induction n generalizing t with
  | zero => exact ⟨t, Nat.le_zero.mp hmn ▸ h⟩
  | succ n ih =>
    rcases Nat.le_succ_iff.mp hmn with hmn | rfl
    · obtain ⟨u, hu, -⟩ := after_succ_eq_ok.mp h
      exact ih hmn hu
    · exact ⟨t, h⟩

theorem le_or_eq_of_after {m n : ℕ} (ht : (after operator s (n + 1)).outcome = .ok t)
    (hm : m ≤ n + 1) {u : Iterate α} (hu : (after operator s m).outcome = .ok u) :
    m ≤ n ∨ u = t := by
  refine (Nat.le_succ_iff.mp hm).imp_right ?_
  rintro rfl
  exact Except.ok.inj (hu.symm.trans ht)

/-- **A run ends in a state of the iteration**, after as many steps as it may take unless it
converges. -/
theorem exists_after_of_run {threshold : α} {m n i : ℕ} {converged : Bool} {last : Iterate α}
    (hs : (after operator s₀ m).outcome = .ok s)
    (h : (run operator threshold n i s).outcome = .ok (converged, last)) :
    ∃ j ≤ m + n, (after operator s₀ j).outcome = .ok last ∧ (converged = false → j = m + n) := by
  induction n generalizing m i s with
  | zero =>
    cases h
    exact ⟨m, le_rfl, hs, fun _ => rfl⟩
  | succ n ih =>
    rw [run] at h
    obtain ⟨t, hstep, h⟩ := Logged.outcome_bind_eq_ok.mp h
    rw [Logged.outcome_report_bind] at h
    have ht : (after operator s₀ (m + 1)).outcome = .ok t := after_succ_eq_ok.mpr ⟨s, hs, hstep⟩
    split_ifs at h
    · cases h
      exact ⟨m + 1, by omega, ht, fun hc => by cases hc⟩
    · obtain ⟨j, hj, hlast, hcap⟩ := ih ht h
      exact ⟨j, by omega, hlast, fun hc => by rw [hcap hc]; omega⟩

end Steps

/-! ### The best state so far -/

section Best
variable {operator : BlockVector ℝ → LinearRun ℝ (BlockVector ℝ)} {rhs : BlockVector ℝ}
  {s₀ t t' : Iterate ℝ} {n : ℕ}

theorem norm_of_after (h : (after operator (start rhs) n).outcome = .ok t) :
    t.norm = t.residual.norm := by
  cases n with
  | zero =>
    cases h
    rfl
  | succ n =>
    obtain ⟨u, -, hstep⟩ := after_succ_eq_ok.mp h
    obtain ⟨image, -, -, rfl⟩ := exists_image_of_step hstep
    rfl

/-- What a state remembers is the solution of a state up to then, and the least norm of a
residual. -/
structure IsBest (operator : BlockVector ℝ → LinearRun ℝ (BlockVector ℝ)) (s₀ : Iterate ℝ) (n : ℕ)
    (t : Iterate ℝ) : Prop where
  exists_state : ∃ m ≤ n, ∃ u, (after operator s₀ m).outcome = .ok u ∧ u.solution = t.best ∧
    u.norm = t.bestNorm
  bestNorm_le : ∀ m ≤ n, ∀ u, (after operator s₀ m).outcome = .ok u → t.bestNorm ≤ u.norm

theorem isBest_start : IsBest operator (start rhs) 0 (start rhs) := by
  refine ⟨⟨0, le_rfl, start rhs, rfl, rfl, rfl⟩, fun m hm u hu => ?_⟩
  obtain rfl : m = 0 := Nat.le_zero.mp hm
  cases hu
  exact le_rfl

/-- **A step keeps the best of the solution before and its own.** -/
theorem IsBest.step (h : IsBest operator s₀ n t) (ht : (after operator s₀ n).outcome = .ok t)
    (hstep : (t.step operator).outcome = .ok t') : IsBest operator s₀ (n + 1) t' := by
  have ht' : (after operator s₀ (n + 1)).outcome = .ok t' := after_succ_eq_ok.mpr ⟨t, ht, hstep⟩
  obtain ⟨image, -, -, hnext⟩ := exists_image_of_step hstep
  have hnorm : t'.bestNorm = if t'.norm < t.bestNorm then t'.norm else t.bestNorm := by
    rw [hnext]
    rfl
  have hbest : t'.best = if t'.norm < t.bestNorm then t'.solution else t.best := by
    rw [hnext]
    rfl
  by_cases hlt : t'.norm < t.bestNorm
  · rw [if_pos hlt] at hnorm hbest
    refine ⟨⟨n + 1, le_rfl, t', ht', hbest.symm, hnorm.symm⟩, fun m hm u hu => ?_⟩
    rw [hnorm]
    rcases le_or_eq_of_after ht' hm hu with hm | rfl
    · exact hlt.le.trans (h.bestNorm_le m hm u hu)
    · exact le_rfl
  · rw [if_neg hlt] at hnorm hbest
    obtain ⟨m, hm, u, hu, hsolution, hu'⟩ := h.exists_state
    refine ⟨⟨m, hm.trans n.le_succ, u, hu, hsolution.trans hbest.symm, hu'.trans hnorm.symm⟩,
      fun m hm u hu => ?_⟩
    rw [hnorm]
    rcases le_or_eq_of_after ht' hm hu with hm | rfl
    · exact h.bestNorm_le m hm u hu
    · exact not_lt.mp hlt

/-- **Every state remembers the best of all states up to it.** -/
theorem isBest_of_after (h : (after operator (start rhs) n).outcome = .ok t) :
    IsBest operator (start rhs) n t := by
  induction n generalizing t with
  | zero =>
    cases h
    exact isBest_start
  | succ n ih =>
    obtain ⟨u, hu, hstep⟩ := after_succ_eq_ok.mp h
    exact (ih hu).step hu hstep

end Best

end Iterate

end SubgraphSolver

end Smoothing
