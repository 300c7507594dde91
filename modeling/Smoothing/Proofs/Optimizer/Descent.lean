import Mathlib
import Smoothing.Proofs.Optimizer.Reachable

/-!
# Runs lower the error

Over exact scalars an error is a number that is not negative (`Optimizer.Consistent.exists_error`).
A step that does not meet the thresholds lowers it by both of them (`Thresholds.lowers_of_not_met`),
so a run of `k` such steps lowers it by `k` times the absolute one (`Optimizer.Steps.mul_le`). The
last step of a run is kept only if it does not raise the error. So no run of either kind raises it,
although undamped steps are made whatever they do to the error: `Optimizer.Reachable.descends`.
-/

namespace Smoothing

variable {𝕜 α : Type} [Field 𝕜] [LinearOrder 𝕜] [IsStrictOrderedRing 𝕜] [Scalar α]
  [exact : ExactScalar 𝕜 α]

open ExactScalar

/-! ### Steps that go on -/

namespace Thresholds

include exact

/-- **A step that does not meet the thresholds lowers the error by both of them.** -/
theorem lowers_of_not_met {t : Thresholds α} {a ρ x y : 𝕜} (habsolute : number a = t.absolute)
    (hrelative : number ρ = t.relative) (hx : 0 ≤ x) (h : t.met (number x) (number y) = false) :
    a ≤ x - y ∧ ρ * x ≤ x - y := by
  simp only [met, Bool.or_eq_false_iff, decide_eq_false_iff_not, ← habsolute, ← hrelative] at h
  obtain ⟨⟨hzero, hdecrease⟩, hratio⟩ := h
  have hpos : 0 < x := by
    refine lt_of_le_of_ne hx fun h0 => ?_
    rw [← number_zero, ← h0, ← Bool.not_eq_true] at hzero
    exact hzero ((beq_number _ _).mpr rfl)
  rw [← number_sub, number_lt, not_lt] at hdecrease
  rw [← number_sub, ← number_div _ _ hpos.ne', number_lt, not_lt, le_div_iff₀ hpos] at hratio
  exact ⟨hdecrease, hratio⟩

end Thresholds

namespace Optimizer

variable {graph : FactorGraph α} {config : Config α} {ordering : EliminationOrder}
  {solver : LinearSolver α} {s u : Optimizer α} {t : Thresholds α} {v : Verbosity} {r : Report α}
  {step : Optimizer α → OptimizerRun α (Option (Optimizer α))}

section Exact

include exact

/-- **The error of a state is a number that is not negative.** -/
theorem Consistent.exists_error (hs : Consistent graph config ordering solver s) :
    ∃ x : 𝕜, 0 ≤ x ∧ number x = s.error := by
  obtain ⟨x, hx⟩ := exists_number hs.isFinite_error
  refine ⟨x, ?_, hx⟩
  have hcost : IsCost s.error := FactorGraph.isCost_error hs.error_eq
  rw [← nonneg_iff (α := α), hx]
  exact hcost hs.isFinite_error

end Exact

/-! ### Sequences of steps -/

theorem Consistent.steps {k : ℕ} (hstep : ∀ a b, (step a).outcome = .ok (some b) → Transition a b)
    (hs : Consistent graph config ordering solver s) (h : Steps (Continues step t) k s u) :
    Consistent graph config ordering solver u :=
  h.invariant (fun _ _ ha hab => ha.transition (hstep _ _ hab.1)) hs

/-- What the report of a run of one kind of step says. -/
structure Descends (step : Optimizer α → OptimizerRun α (Option (Optimizer α))) (t : Thresholds α)
    (s : Optimizer α) (r : Report α) : Prop where
  ends : Ends step t s.params.maxIterations s r.status r.iterations r.optimizer
  initialError_eq : r.initialError = s.error
  finalError_eq : r.finalError = r.optimizer.error
  finalError_le : r.finalError ≤ r.initialError
  iterations_le : r.iterations ≤ s.params.maxIterations
  /-- Every step after which the run went on lowered the error by both thresholds. -/
  lowers : ∀ k a b, Steps (Continues step t) k s a → Continues step t a b →
    t.absolute ≤ a.error - b.error ∧ t.relative * a.error ≤ a.error - b.error
  mul_absolute_le : 1 ≤ r.iterations → ((r.iterations - 1 : ℕ) : α) * t.absolute ≤ r.initialError
  maxIterations_iff : r.status = .maxIterations ↔
    ∃ last, Steps (Continues step t) s.params.maxIterations s last

section Exact

include exact

variable {a ρ x y : 𝕜} (habsolute : number a = t.absolute) (hrelative : number ρ = t.relative)
  (hstep : ∀ a b, (step a).outcome = .ok (some b) → Transition a b)
  (hs : Consistent graph config ordering solver s)

include habsolute hrelative hs

theorem Continues.lowers (h : Continues step t s u) (hx : number x = s.error)
    (hy : number y = u.error) : a ≤ x - y ∧ ρ * x ≤ x - y := by
  obtain ⟨x', hx0, hx'⟩ := hs.exists_error
  obtain rfl : x' = x := number_injective (hx'.trans hx.symm)
  exact Thresholds.lowers_of_not_met habsolute hrelative hx0 (by rw [hx, hy]; exact h.2)

include hstep

/-- **A run of `k` steps that go on lowers the error by `k` times the absolute threshold.** -/
theorem Steps.mul_le {k : ℕ} (h : Steps (Continues step t) k s u) (hx : number x = s.error)
    (hy : number y = u.error) : k * a ≤ x - y := by
  induction h generalizing x with
  | none s =>
    obtain rfl : x = y := number_injective (hx.trans hy.symm)
    simp
  | @cons k s next u hfirst hrest ih =>
    have hnext : Consistent graph config ordering solver next := hs.transition (hstep _ _ hfirst.1)
    obtain ⟨z, -, hz⟩ := hnext.exists_error
    have hlower : a ≤ x - z := (Continues.lowers habsolute hrelative hs hfirst hx hz).1
    have hlowers : k * a ≤ z - y := ih hnext hz hy
    push_cast
    linarith

theorem Steps.exists_error {k : ℕ} (h : Steps (Continues step t) k s u) (hx : number x = s.error) :
    ∃ y : 𝕜, 0 ≤ y ∧ number y = u.error ∧ k * a ≤ x - y := by
  obtain ⟨y, hy0, hy⟩ := (hs.steps hstep h).exists_error
  exact ⟨y, hy0, hy, Steps.mul_le habsolute hrelative hstep hs h hx hy⟩

theorem Ends.exists_errors {n k : ℕ} {status : Status} (ha : 0 ≤ a)
    (h : Ends step t n s status k u) :
    ∃ x y : 𝕜, number x = s.error ∧ number y = u.error ∧ y ≤ x ∧ (k - 1 : ℕ) * a ≤ x := by
  obtain ⟨x, -, hx⟩ := hs.exists_error
  have hpred : ((k - 1 : ℕ) : 𝕜) * a ≤ k * a := by gcongr; omega
  have hpos : 0 ≤ (k : 𝕜) * a := by positivity
  cases h with
  | cap hcap =>
    obtain ⟨y, hy0, hy, hle⟩ := Steps.exists_error habsolute hrelative hstep hs hcap hx
    exact ⟨x, y, hx, hy, by linarith, by linarith⟩
  | stalled _ hstalled _ =>
    obtain ⟨y, hy0, hy, hle⟩ := Steps.exists_error habsolute hrelative hstep hs hstalled hx
    exact ⟨x, y, hx, hy, by linarith, by linarith⟩
  | @converged k last next _ hlast hnext _ =>
    obtain ⟨y, hy0, hy, hle⟩ := Steps.exists_error habsolute hrelative hstep hs hlast hx
    have hpos : 0 ≤ (k : 𝕜) * a := by positivity
    rw [Nat.add_sub_cancel]
    split_ifs with hkept
    · obtain ⟨z, -, hz⟩ := ((hs.steps hstep hlast).transition (hstep _ _ hnext)).exists_error
      rw [← hz, ← hy, number_le] at hkept
      exact ⟨x, z, hx, hz, by linarith, by linarith⟩
    · exact ⟨x, y, hx, hy, by linarith, by linarith⟩

omit habsolute hrelative in
theorem run_descends {method : Method} (h : (s.run method step t v).outcome = .ok r) :
    Descends step t s r := by
  obtain ⟨hrelative, habsolute, hinitial, hends⟩ := run_ends h
  obtain ⟨ρ, -, hrelative⟩ := Params.isDamping_iff.mp hrelative
  obtain ⟨a, ha, habsolute⟩ := Params.isDamping_iff.mp habsolute
  obtain ⟨x, y, hx, hy, hle, hmul⟩ := Ends.exists_errors habsolute hrelative hstep hs ha hends
  refine ⟨hends, hinitial, rfl, ?_, hends.iterations_le, fun k b c hsteps hbc => ?_, fun _ => ?_,
    hends.maxIterations_iff⟩
  · rw [Report.finalError, hinitial, ← hx, ← hy, number_le]
    exact hle
  · have hb : Consistent graph config ordering solver b := hs.steps hstep hsteps
    obtain ⟨x, -, hx⟩ := hb.exists_error
    obtain ⟨y, -, hy⟩ := (hb.transition (hstep _ _ hbc.1)).exists_error
    rw [← hx, ← hy, ← habsolute, ← hrelative, ← number_sub, ← number_mul, number_le, number_le]
    exact Continues.lowers habsolute hrelative hb hbc hx hy
  · rw [hinitial, ← hx, ← habsolute, ← number_natCast, ← number_mul, number_le]
    exact hmul

omit habsolute hrelative hstep hs in
/-- **Runs do not raise the error.** This holds of runs of both kinds, from every state of an
optimizer. A run of undamped steps never stalls, and a run of damped steps stalls only in a state
from which the damped step does. -/
theorem Reachable.descends (hs : Reachable graph config ordering solver s) (t : Thresholds α)
    (v : Verbosity) : (∀ r, (s.gaussNewton t v).outcome = .ok r →
      Descends (fun s => some <$> s.step v) t s r ∧ r.status ≠ .stalled) ∧
    ∀ r, (s.levenbergMarquardt t v).outcome = .ok r →
      Descends (dampedStep? v) t s r ∧ (r.status = .stalled → ∃ attempts lambda error,
        (r.optimizer.dampedStep v).outcome = .error (.cause (.stalled attempts lambda error))) := by
  constructor
  · intro r h
    have hstep : ∀ a b : Optimizer α, (some <$> a.step v).outcome = .ok (some b) →
        Transition a b := fun _ _ hab =>
      transition_of_step (some_step_eq_some_iff.mp hab)
    have hdescends : Descends (fun s => some <$> s.step v) t s r :=
      run_descends hstep hs.consistent h
    exact ⟨hdescends, fun hstalled => some_step_ne_none (hstalled ▸ hdescends.ends).step_eq_none⟩
  · intro r h
    have hstep : ∀ a b : Optimizer α, (dampedStep? v a).outcome = .ok (some b) →
        Transition a b := fun _ _ hab =>
      transition_of_dampedStep (dampedStep?_eq_some_iff.mp hab)
    have hdescends : Descends (dampedStep? v) t s r := run_descends hstep hs.consistent h
    exact ⟨hdescends, fun hstalled =>
      dampedStep?_eq_none_iff.mp (hstalled ▸ hdescends.ends).step_eq_none⟩

end Exact

end Optimizer

namespace Chain

/-- Runs of both kinds from the start. -/
def runs (s : Optimizer Rational) : OptimizerRun Rational (Report Rational × Report Rational) := do
  let r₁ ← s.gaussNewton ⟨0, 0⟩ .silent
  let r₂ ← s.levenbergMarquardt ⟨0, 0⟩ .silent
  return (r₁, r₂)

theorem descends_runs :
    ∃ s r₁ r₂, start.outcome = .ok s ∧ (s.gaussNewton ⟨0, 0⟩ .silent).outcome = .ok r₁ ∧
      (s.levenbergMarquardt ⟨0, 0⟩ .silent).outcome = .ok r₂ ∧
      Optimizer.Descends (fun s => some <$> s.step .silent) ⟨0, 0⟩ s r₁ ∧
      Optimizer.Descends (Optimizer.dampedStep? .silent) ⟨0, 0⟩ s r₂ := by
  have hok : (start >>= runs).outcome.isOk = true := by decide +kernel
  obtain ⟨_, h⟩ := Logged.exists_of_isOk hok
  obtain ⟨s, hs, hruns⟩ := Logged.outcome_bind_eq_ok.mp h
  obtain ⟨r₁, h₁, hruns⟩ := Logged.outcome_bind_eq_ok.mp hruns
  obtain ⟨r₂, h₂, -⟩ := Logged.outcome_bind_eq_ok.mp hruns
  obtain ⟨hgaussNewton, hlevenbergMarquardt⟩ :=
    Optimizer.Reachable.descends (reachable_start hs) ⟨0, 0⟩ .silent
  exact ⟨s, r₁, r₂, hs, h₁, h₂, (hgaussNewton r₁ h₁).1, (hlevenbergMarquardt r₂ h₂).1⟩

end Chain

end Smoothing
