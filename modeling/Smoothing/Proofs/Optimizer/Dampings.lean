import Mathlib
import Smoothing.Proofs.Optimizer.Reachable

/-!
# The dampings of a step

A damped step tries dampings one after the other, all with the same linearization. Each is the one
before times the factor of the increase, and at least the bound for a rejected damping
(`Optimizer.dampings`). Over exact scalars the parameters of a state are such that the dampings
increase strictly, also from zero (`Optimizer.strictMono_dampings`), and the step computes just
these (`Optimizer.number_dampings`). So the damping of the state after the step is a part of the
damping that was accepted, and a step that stalls reports the last damping that it has tried
(**`Optimizer.Reachable.dampedStep_tries`**).
-/

namespace Smoothing

variable {𝕜 α : Type} [Field 𝕜] [LinearOrder 𝕜] [IsStrictOrderedRing 𝕜]

namespace Optimizer

/-! ### The sequence -/

/-- The dampings after a first one: each a multiple of the one before, and at least a bound. -/
def dampings (increase bound first : 𝕜) : ℕ → 𝕜
  | 0 => first
  | j + 1 => max (dampings increase bound first j * increase) bound

section Sequence

variable {increase bound first : 𝕜} (hincrease : 1 < increase) (hbound : 0 < bound)
  (hfirst : 0 ≤ first)

omit [IsStrictOrderedRing 𝕜] in
include hbound hfirst in
theorem dampings_nonneg (j : ℕ) : 0 ≤ dampings increase bound first j := by
  cases j with
  | zero => exact hfirst
  | succ j => exact hbound.le.trans (le_max_right _ _)

include hincrease hbound hfirst

theorem dampings_lt_succ (j : ℕ) :
    dampings increase bound first j < dampings increase bound first (j + 1) := by
  rw [dampings]
  rcases (dampings_nonneg hbound hfirst j).eq_or_lt with hzero | hpos
  · -- zero times the factor is zero, and the bound is what is next
    rw [← hzero]
    exact hbound.trans_le (le_max_right _ _)
  · exact (lt_mul_of_one_lt_right hpos hincrease).trans_le (le_max_left _ _)

theorem strictMono_dampings : StrictMono (dampings increase bound first) :=
  strictMono_nat_of_lt_succ (dampings_lt_succ hincrease hbound hfirst)

end Sequence

variable [Scalar α] [exact : ExactScalar 𝕜 α]

open ExactScalar

include exact

/-! ### The dampings of a state -/

variable {s : Optimizer α} {linear : GaussianGraph α} {v : Verbosity}

/-- **The dampings that are tried are those of the sequence.** -/
theorem number_dampings {increase bound first : 𝕜} (hincrease : number increase = s.params.increase)
    (hbound : number bound = s.params.minRejected) (j : ℕ) :
    number (dampings increase bound first j) = s.raised^[j] (number first) := by
  induction j with
  | zero => rfl
  | succ j ih =>
    rw [Function.iterate_succ_apply', ← ih, raised, ← hincrease, ← hbound, ← number_mul,
      max_number, dampings]

theorem accepts_eq_false_iff (hfinite : Scalar.isFinite s.error = true) {e : α} :
    s.accepts e = false ↔ Scalar.isFinite e = false ∨ s.error < e := by
  obtain ⟨x, hx⟩ := exists_number hfinite
  rw [accepts, Bool.and_eq_false_iff, decide_eq_false_iff_not]
  cases he : Scalar.isFinite e with
  | false => simp
  | true =>
    obtain ⟨y, rfl⟩ := exists_number he
    simp [← hx, number_le, number_lt]

omit [Field 𝕜] [LinearOrder 𝕜] [IsStrictOrderedRing 𝕜] exact in
/-- Only a step that has rejected all dampings stalls. -/
theorem exists_of_stalled {n : ℕ} {lambda error : α}
    (h : (s.dampedStep v).outcome = .error (.cause (.stalled n lambda error))) :
    ∃ linear, (s.graph.linearize s.config).outcome = .ok linear ∧
      (∀ j < s.params.maxAttempts, s.Rejects linear (s.raised^[j] s.lambda)) ∧
      n = s.params.maxAttempts ∧ lambda = s.raised^[s.params.maxAttempts - 1] s.lambda ∧
        error = s.error := by
  rcases Logged.outcome_bind_eq_error.mp h with h | ⟨linear, hlinear, h⟩
  · obtain ⟨t, -, ht⟩ := linearize_eq_error_iff.mp h
    cases t <;> cases ht
  rcases search_eq_error_iff.mp h with ⟨i, -, -, haborts⟩ | ⟨hrejects, hstalled⟩
  · generalize hstop : Stop.cause (OptimizerError.stalled n lambda error) = stop at haborts
    cases haborts with
    | unusable _ => cases hstop
    | @widths t _ _ => cases t <;> cases hstop
    | @unsolved _ t _ _ _ => cases t <;> cases hstop
    | update _ _ => cases hstop
    | @trial _ _ t _ _ _ => cases t <;> cases hstop
  · cases hstalled
    exact ⟨linear, linearize_eq_ok_iff.mp hlinear, hrejects, rfl, s.lastTried_self _ _, rfl⟩

variable {graph : FactorGraph α} {config : Config α} {ordering : EliminationOrder}
  {solver : LinearSolver α}

/-- **What a damped step tries.** In every state the dampings increase strictly from the one of the
state on, and at least one is tried. If the step answers then a damping among those that may be
tried was accepted, after all before it were rejected: with it the linearized problem has an update,
the error after it is finite and not above the current one, and a part of the damping is that of the
next state. If the step stalls then all of them were rejected, and the last one is reported, with
the error as it was. -/
theorem Reachable.dampedStep_tries (h : Reachable graph config ordering solver s) (v : Verbosity) :
    0 < s.params.maxAttempts ∧
    (∀ e, s.accepts e = false ↔ Scalar.isFinite e = false ∨ s.error < e) ∧
    ∃ increase bound first : 𝕜, number increase = s.params.increase ∧
      number bound = s.params.minRejected ∧ number first = s.lambda ∧
      StrictMono (dampings increase bound first) ∧
      (∀ next, (s.dampedStep v).outcome = .ok next →
        ∃ linear, (s.graph.linearize s.config).outcome = .ok linear ∧ ∃ i < s.params.maxAttempts,
          (∀ j < i, s.Rejects linear (number (dampings increase bound first j))) ∧
          ∃ δ c e, s.Solves linear (number (dampings increase bound first i)) δ ∧
            s.config.retract δ = .ok c ∧ (s.graph.error c).outcome = .ok e ∧
            Scalar.isFinite e = true ∧ e ≤ s.error ∧
            next = s.advance c e (number (dampings increase bound first i) * s.params.decrease)) ∧
      ∀ n lambda error, (s.dampedStep v).outcome = .error (.cause (.stalled n lambda error)) →
        ∃ linear, (s.graph.linearize s.config).outcome = .ok linear ∧
          (∀ j < s.params.maxAttempts,
            s.Rejects linear (number (dampings increase bound first j))) ∧
          n = s.params.maxAttempts ∧
          lambda = number (dampings increase bound first (s.params.maxAttempts - 1)) ∧
          error = s.error := by
  obtain ⟨hparams, hlambda⟩ := h.adjusted
  have hsound := Params.refused?_eq_none_iff.mp hparams
  obtain ⟨increase, bound, hincrease, hlt, hbound, hpos⟩ := hsound.exists_numbers
  obtain ⟨first, hnonneg, hfirst⟩ := Params.isDamping_iff.mp hlambda
  have hdampings (j : ℕ) : s.raised^[j] s.lambda = number (dampings increase bound first j) := by
    rw [number_dampings hincrease hbound, hfirst]
  refine ⟨Nat.pos_of_ne_zero hsound.maxAttempts,
    fun e => accepts_eq_false_iff h.consistent.isFinite_error, increase, bound, first, hincrease,
    hbound, hfirst, strictMono_dampings hlt hpos hnonneg, fun next hnext => ?_,
      fun n lambda error hstalled => ?_⟩
  · obtain ⟨linear, hlinear, i, hi, hrejects, haccepts⟩ := dampedStep_eq_ok_iff.mp hnext
    simp only [hdampings] at hrejects haccepts
    obtain ⟨hδ, hc, he, haccepts⟩ := haccepts
    rw [accepts, Bool.and_eq_true, decide_eq_true_iff] at haccepts
    exact ⟨linear, hlinear, i, hi, hrejects, _, _, _, hδ, hc, he, haccepts.1, haccepts.2, rfl⟩
  · obtain ⟨linear, hlinear, hrejects, hn, hlambda, herror⟩ := exists_of_stalled hstalled
    simp only [hdampings] at hrejects hlambda
    exact ⟨linear, hlinear, hrejects, hn, hlambda, herror⟩

end Optimizer

/-! ### A step that overshoots

One variable, measured through `1 / x` as four from `x = 1`. The undamped update leads to `x = -2`,
where the error is larger. The bound for a rejected damping makes the damped elimination
rational. -/

namespace Overshoot

open Rational (number)

def x : Key := ⟨'x', 1⟩

def measurement : Measurement Rational where
  value x := some (x.map (1 / ·))
  jacobian x := some (Mat.diagonal (x.map fun a => -(1 / (a * a))))

def graph : FactorGraph Rational :=
  ⟨[.function ⟨x, ⟨[number 4]⟩, ⟨.unit, Mat.identity 1⟩, measurement⟩]⟩

def config : Config Rational := KeyMap.empty.insert x (.rn ⟨[number 1]⟩)

def ordering : EliminationOrder := .natural graph

def solver : LinearSolver Rational := DirectMethod.qr.solver

/-- The start, without damping, and with a number of dampings to try. -/
def start (attempts : ℕ) : OptimizerRun Rational (Optimizer Rational) := do
  let s ← Optimizer.build graph config ordering solver
  s.withParams { Params.default with
    initialLambda := 0, minRejected := number (576 / 49), maxAttempts := attempts }

theorem reachable_start {attempts : ℕ} {s : Optimizer Rational}
    (h : (start attempts).outcome = .ok s) :
    Optimizer.Reachable graph config ordering solver s := by
  obtain ⟨s₀, h₀, h⟩ := Logged.outcome_bind_eq_ok.mp h
  exact .withParams (.start h₀) h

/-- The damping of a state, if a computation leads to one. -/
def reachedDamping : Except (Stop (OptimizerError Rational)) (Optimizer Rational) → Option Rational
  | .ok s => some s.lambda
  | .error _ => none

/-- The number of dampings that were tried and the last of them, if a computation stalls. -/
def stalledAt : Except (Stop (OptimizerError Rational)) (Optimizer Rational) → Option (ℕ × Rational)
  | .error (.cause (.stalled n lambda _)) => some (n, lambda)
  | _ => none

/-- With twenty dampings to try the step answers with a tenth of the second one. With one to try it
stalls. -/
theorem dampedStep_tries_start :
    (∃ s next, (start 20).outcome = .ok s ∧ (s.dampedStep .silent).outcome = .ok next ∧
      next.lambda = number (576 / 490) ∧ ∃ increase bound first : ℚ,
        StrictMono (Optimizer.dampings increase bound first) ∧ ∃ linear, ∃ i < s.params.maxAttempts,
          (∀ j < i, s.Rejects linear (number (Optimizer.dampings increase bound first j))) ∧
          next.lambda = number (Optimizer.dampings increase bound first i) * s.params.decrease) ∧
    ∃ s error linear, (start 1).outcome = .ok s ∧
      (s.dampedStep .silent).outcome = .error (.cause (.stalled 1 (number 0) error)) ∧
      error = s.error ∧ s.Rejects linear s.lambda := by
  have hdamping : reachedDamping (start 20 >>= fun s => s.dampedStep .silent).outcome =
      some (number (576 / 490)) := by
    decide +kernel
  have hstart : (start 1).outcome.isOk = true := by decide +kernel
  have hstall : stalledAt (start 1 >>= fun s => s.dampedStep .silent).outcome =
      some (1, number 0) := by decide +kernel
  constructor
  · unfold reachedDamping at hdamping
    split at hdamping
    · next next hnext =>
      obtain ⟨s, hs, hnext⟩ := Logged.outcome_bind_eq_ok.mp hnext
      obtain ⟨-, -, increase, bound, first, -, -, -, hmono, hok, -⟩ :=
        (reachable_start hs).dampedStep_tries .silent
      obtain ⟨linear, -, i, hi, hrejects, δ, c, e, -, -, -, -, -, rfl⟩ := hok next hnext
      exact ⟨s, _, hs, hnext, Option.some.inj hdamping, increase, bound, first, hmono, linear, i,
        hi, hrejects, rfl⟩
    · cases hdamping
  · obtain ⟨s, hs⟩ := Logged.exists_of_isOk hstart
    rw [Logged.outcome_bind_ok _ hs] at hstall
    unfold stalledAt at hstall
    split at hstall
    · next n lambda error hstalled =>
      cases hstall
      obtain ⟨hpos, -, increase, bound, first, -, -, hfirst, -, -, hall⟩ :=
        (reachable_start hs).dampedStep_tries .silent
      obtain ⟨linear, -, hrejects, -, -, herror⟩ := hall _ _ _ hstalled
      have hzero := hrejects 0 hpos
      rw [Optimizer.dampings, hfirst] at hzero
      exact ⟨s, error, linear, hs, hstalled, herror, hzero⟩
    · cases hstall

end Overshoot

end Smoothing
