import Mathlib
import Smoothing.Proofs.Optimizer.Reachable
import Smoothing.Proofs.Scalar.Binary64

/-!
# Damped steps without damping

A damped step whose damping is zero tries the undamped update first. It differs from an undamped
step in what becomes of this update: a damped step goes on with another damping if the linearized
problem cannot be solved for numerical reasons, and if the error after the update is not finite or
above the current one, and an undamped step ends.

In floating point arithmetic, where there are two zeros, a damping of zero remains the same when it
is reduced, and is raised to the bound for a rejected damping. So the two kinds of steps agree where
they can: **`Optimizer.Reachable.dampedStep_undamped`**.
-/

namespace Smoothing

/-- A failure of a step after which no other damping is tried: all but a numerical one of the
solver, and an error that is not finite. -/
def Stop.IsFinal {α : Type} : Stop (OptimizerError α) → Prop
  | .sizes | .cause (.problem _) => True
  | .cause (.linear e) => e.isNumerical = false
  | .cause _ => False

variable {α : Type} [Scalar α]

namespace Optimizer

variable {s next : Optimizer α} {linear : GaussianGraph α} {lambda : α} {v : Verbosity}
  {stop : Stop (OptimizerError α)}

/-! ### The first damping -/

section Zero

variable (hzero : (s.lambda == 0) = true)
include hzero

theorem solves_iff {δ : BlockVector α} :
    s.Solves linear s.lambda δ ↔ (s.solver.solve linear s.ordering).outcome = .ok δ := by
  unfold Solves
  simp [linear.outcome_damped_of_beq hzero]

theorem exists_solves {δ : BlockVector α} (h : (s.update v).outcome = .ok δ) :
    ∃ linear, (s.graph.linearize s.config).outcome = .ok linear ∧ s.Solves linear s.lambda δ := by
  obtain ⟨linear, hlinear, hδ⟩ := update_eq_ok_iff.mp h
  exact ⟨linear, hlinear, (solves_iff hzero).mpr hδ⟩

theorem accepts_of_step (hdecrease : s.lambda * s.params.decrease = s.lambda)
    (h : (s.step v).outcome = .ok next) (hle : next.error ≤ s.error) :
    ∃ linear, (s.graph.linearize s.config).outcome = .ok linear ∧
      s.Accepts linear s.lambda next := by
  obtain ⟨δ, c, e, hδ, hc, he, hfinite, rfl⟩ := step_eq_ok_iff.mp h
  obtain ⟨linear, hlinear, hδ⟩ := exists_solves hzero hδ
  have haccepts : s.accepts e = true := by
    rw [accepts, hfinite, Bool.true_and, decide_eq_true_iff]
    exact hle
  have hadvance := Accepts.intro hδ hc he haccepts
  rw [hdecrease] at hadvance
  exact ⟨linear, hlinear, hadvance⟩

theorem aborts_of_step (h : (s.step v).outcome = .error stop) (hfinal : stop.IsFinal) :
    (∃ t, (s.graph.linearize s.config).outcome = .error t ∧ t.map .problem = stop) ∨
      ∃ linear, (s.graph.linearize s.config).outcome = .ok linear ∧
      s.Aborts linear s.lambda stop := by
  rcases step_eq_error_iff.mp h with h | ⟨δ, hδ, h⟩
  · refine (update_eq_error_iff.mp h).imp_right fun ⟨linear, hlinear, t, hsolve, ht⟩ =>
      ⟨linear, hlinear, ?_⟩
    subst ht
    refine .unsolved (linear.outcome_damped_of_beq hzero) hsolve fun e he => ?_
    subst he
    exact hfinal
  obtain ⟨linear, hlinear, hδ⟩ := exists_solves hzero hδ
  refine .inr ⟨linear, hlinear, ?_⟩
  rcases h with ⟨e, hc, rfl⟩ | ⟨c, hc, ⟨t, he, rfl⟩ | ⟨e, -, -, rfl⟩⟩
  · exact .update hδ hc
  · exact .trial hδ hc he
  · exact hfinal.elim

theorem rejects_of_step (hok : ∀ next, (s.step v).outcome = .ok next → ¬ next.error ≤ s.error)
    (herror : ∀ stop, (s.step v).outcome = .error stop → ¬ stop.IsFinal) :
    ∃ linear, (s.graph.linearize s.config).outcome = .ok linear ∧ s.Rejects linear s.lambda := by
  rcases hstep : (s.step v).outcome with stop | next
  · have hfinal := herror stop hstep
    rcases step_eq_error_iff.mp hstep with h | ⟨δ, hδ, h⟩
    · rcases update_eq_error_iff.mp h with ⟨t, -, rfl⟩ | ⟨linear, hlinear, t, hsolve, rfl⟩
      · cases t <;> exact (hfinal trivial).elim
      · cases t with
        | sizes => exact (hfinal trivial).elim
        | cause e =>
          have hnumerical : e.isNumerical = true := by simpa [Stop.map, Stop.IsFinal] using hfinal
          exact ⟨linear, hlinear, .unsolved (linear.outcome_damped_of_beq hzero) hsolve hnumerical⟩
    · obtain ⟨linear, hlinear, hδ⟩ := exists_solves hzero hδ
      rcases h with ⟨e, -, rfl⟩ | ⟨c, hc, ⟨t, -, rfl⟩ | ⟨e, he, hfinite, -⟩⟩
      · exact (hfinal trivial).elim
      · cases t <;> exact (hfinal trivial).elim
      · exact ⟨linear, hlinear, .worse hδ hc he (by rw [accepts, hfinite, Bool.false_and])⟩
  · have hle := hok next hstep
    obtain ⟨δ, c, e, hδ, hc, he, -, rfl⟩ := step_eq_ok_iff.mp hstep
    obtain ⟨linear, hlinear, hδ⟩ := exists_solves hzero hδ
    refine ⟨linear, hlinear, .worse hδ hc he ?_⟩
    rw [accepts, Bool.and_eq_false_iff]
    exact .inr (decide_eq_false hle)

end Zero

/-! ### The whole step -/

/-- An accepted update leads to another configuration than a rejected one: the errors there
differ. -/
theorem Accepts.config_ne {lambda' : α} {δ : BlockVector α} {c : Config α}
    (h : s.Accepts linear lambda' next) (hrejects : s.Rejects linear lambda)
    (hδ : s.Solves linear lambda δ) (hc : s.config.retract δ = .ok c) : next.config ≠ c := by
  obtain ⟨-, -, he, haccepts⟩ := h
  rintro rfl
  obtain ⟨damped, hdamped, hsolve⟩ := hδ
  cases hrejects with
  | unsolved hdamped' hsolve' _ =>
    cases hdamped.symm.trans hdamped'
    cases hsolve.symm.trans hsolve'
  | worse hδ' hc' he' hworse =>
    obtain ⟨damped', hdamped', hsolve'⟩ := hδ'
    cases hdamped.symm.trans hdamped'
    cases hsolve.symm.trans hsolve'
    cases hc.symm.trans hc'
    cases he.symm.trans he'
    rw [haccepts] at hworse
    cases hworse

end Optimizer

/-! ### Floating point arithmetic -/

/-- The parameters of a fresh optimizer are sound. -/
theorem Params.isSound_default_float : (default : Params Float).IsSound where
  initialLambda := by decide
  isFinite_increase := by decide
  increase := by decide
  decrease_pos := by decide
  decrease_le := by decide
  isFinite_minRejected := by decide
  minRejected_pos := by decide
  maxAttempts := by decide

namespace Optimizer

variable {s : Optimizer Float} {graph : FactorGraph Float} {config : Config Float}
  {ordering : EliminationOrder} {solver : LinearSolver Float}

/-- Zero is raised to the bound for a rejected damping. -/
theorem raised_of_beq (hparams : s.params.IsSound) (hzero : (s.lambda == 0) = true) :
    s.raised s.lambda = s.params.minRejected := by
  rw [raised, Binary64.mul_eq_self hzero
    (Binary64.isPositive_of_not_le hparams.isFinite_increase hparams.increase)]
  exact Binary64.max_eq_right hzero hparams.minRejected_pos

/-- **A damped step without damping is an undamped step where that one does not raise the error**,
and fails with it where the failure is final. Otherwise it rejects the undamped update, goes on with
the bound for a rejected damping, or stalls if no other damping may be tried, and never answers with
the configuration of this update. -/
theorem Reachable.dampedStep_undamped (h : Reachable graph config ordering solver s)
    (hzero : (s.lambda == 0) = true) (v w : Verbosity) :
    (∀ next, (s.step v).outcome = .ok next → next.error ≤ s.error →
      (s.dampedStep w).outcome = .ok next) ∧
    (∀ stop, (s.step v).outcome = .error stop → stop.IsFinal →
      (s.dampedStep w).outcome = .error stop) ∧
    ((∀ next, (s.step v).outcome = .ok next → ¬ next.error ≤ s.error) →
      (∀ stop, (s.step v).outcome = .error stop → ¬ stop.IsFinal) →
      ∃ linear, (s.graph.linearize s.config).outcome = .ok linear ∧ s.Rejects linear s.lambda ∧
        (s.dampedStep w).outcome =
          (s.search linear w (s.params.maxAttempts - 1) 2 s.params.minRejected s.lambda).outcome ∧
        (s.params.maxAttempts = 1 →
          (s.dampedStep w).outcome = .error (.cause (.stalled 1 s.lambda s.error))) ∧
        ∀ δ c, (s.update v).outcome = .ok δ → s.config.retract δ = .ok c →
          ∀ next, (s.dampedStep w).outcome = .ok next → next.config ≠ c) := by
  have hparams := h.isSound_params Params.isSound_default_float
  obtain ⟨n, hn⟩ := Nat.exists_eq_succ_of_ne_zero hparams.maxAttempts
  have hsearch {linear : GaussianGraph Float} (hlinear : (s.graph.linearize s.config).outcome =
      .ok linear) :
      (s.dampedStep w).outcome = (s.search linear w (n + 1) 1 s.lambda s.lambda).outcome := by
    rw [outcome_dampedStep hlinear, hn]
  refine ⟨fun next hnext hle => ?_, fun stop hstop hfinal => ?_, fun hok herror => ?_⟩
  · have hdecrease : s.lambda * s.params.decrease = s.lambda :=
      Binary64.mul_eq_self hzero
        (Binary64.isPositive_of_pos_of_le hparams.decrease_pos hparams.decrease_le)
    obtain ⟨linear, hlinear, haccepts⟩ := accepts_of_step hzero hdecrease hnext hle
    rw [hsearch hlinear, haccepts.outcome_search]
  · rcases aborts_of_step hzero hstop hfinal with hlinear | ⟨linear, hlinear, haborts⟩
    · exact Logged.outcome_bind_error _ (linearize_eq_error_iff.mpr hlinear)
    · rw [hsearch hlinear, haborts.outcome_search]
  · obtain ⟨linear, hlinear, hrejects⟩ := rejects_of_step hzero hok herror
    refine ⟨linear, hlinear, hrejects, ?_, fun hone => ?_, fun δ c hδ hc next hnext => ?_⟩
    · rw [hsearch hlinear, hrejects.outcome_search, raised_of_beq hparams hzero, hn,
        Nat.succ_sub_one]
    · have hn0 : n = 0 := Nat.succ_injective (hn.symm.trans hone)
      rw [hsearch hlinear, hrejects.outcome_search, hn0]
      exact congrArg (fun n =>
        Except.error (Stop.cause (OptimizerError.stalled n s.lambda s.error))) hone
    · obtain ⟨linear', hlinear', i, -, -, haccepts⟩ := dampedStep_eq_ok_iff.mp hnext
      cases hlinear.symm.trans hlinear'
      obtain ⟨linear', hlinear', hδ⟩ := exists_solves hzero hδ
      cases hlinear.symm.trans hlinear'
      exact haccepts.config_ne hrejects hδ hc

end Optimizer

/-! ### Three measurements

From `x = 1` the undamped update for the measurement `z` of `1 / x` leads to `x = 2 - z`. For
`z = 0.5` the error is smaller there, for `z = 2` there is none, and for `z = 4` it is larger. -/

namespace Reciprocal

/-- Measures `1 / x` as `z`. -/
def graphOf (z : Float) : FactorGraph Float :=
  ⟨[.function ⟨x, ⟨[z]⟩, ⟨.unit, Mat.identity 1⟩, measurement⟩]⟩

def config : Config Float := KeyMap.empty.insert x (.rn ⟨[1.0]⟩)

/-- The state at `x = 1`, without damping. -/
def startOf (z : Float) : OptimizerRun Float (Optimizer Float) := do
  let s ← Optimizer.build (graphOf z) config (.natural (graphOf z)) DirectMethod.qr.solver
  s.withLambda 0

theorem reachable_startOf {z : Float} {s : Optimizer Float} (h : (startOf z).outcome = .ok s) :
    Optimizer.Reachable (graphOf z) config (.natural (graphOf z)) DirectMethod.qr.solver s ∧
    (s.lambda == 0) = true := by
  obtain ⟨s₀, h₀, h⟩ := Logged.outcome_bind_eq_ok.mp h
  have hzero : ((0 : Float) == 0) = true := by decide +kernel
  refine ⟨.withLambda (.start h₀) h, ?_⟩
  unfold Optimizer.withLambda at h
  split at h
  · cases h
  · cases h
    exact hzero

/-- Whether an undamped step from a state answers with an error that satisfies a test. -/
def stepsTo (test : Float → Float → Bool) (s : Optimizer Float) : Bool :=
  match (s.step .silent).outcome with
  | .ok next => test next.error s.error
  | .error _ => false

/-- Whether there is a start, with a property. -/
def startsWith (z : Float) (p : Optimizer Float → Bool) : Bool :=
  match (startOf z).outcome with
  | .ok s => p s
  | .error _ => false

theorem exists_of_startsWith {z : Float} {p : Optimizer Float → Bool} (h : startsWith z p = true) :
    ∃ s, (startOf z).outcome = .ok s ∧ p s = true := by
  unfold startsWith at h
  split at h
  · next s hs => exact ⟨s, hs, h⟩
  · cases h

theorem exists_of_stepsTo {z : Float} {test : Float → Float → Bool}
    (h : startsWith z (stepsTo test) = true) :
    ∃ s next, (startOf z).outcome = .ok s ∧ (s.step .silent).outcome = .ok next ∧
      test next.error s.error = true := by
  obtain ⟨s, hs, hstep⟩ := exists_of_startsWith h
  unfold stepsTo at hstep
  split at hstep
  · next next hnext => exact ⟨s, next, hs, hnext, hstep⟩
  · cases hstep

theorem dampedStep_undamped_start :
    (∃ s next, (startOf 0.5).outcome = .ok s ∧ (s.step .silent).outcome = .ok next ∧
      (s.dampedStep .silent).outcome = .ok next) ∧
    (∃ s, (startOf 2).outcome = .ok s ∧
      (s.step .silent).outcome = .error (.cause (.problem (.factor 0 .residualNotFinite))) ∧
      (s.dampedStep .silent).outcome = .error (.cause (.problem (.factor 0 .residualNotFinite)))) ∧
    ∃ s next linear, (startOf 4).outcome = .ok s ∧ (s.step .silent).outcome = .ok next ∧
      s.Rejects linear s.lambda ∧ (s.dampedStep .silent).outcome =
        (s.search linear .silent (s.params.maxAttempts - 1) 2 s.params.minRejected
          s.lambda).outcome := by
  have hsmaller : startsWith 0.5 (stepsTo fun e e' => decide (e ≤ e')) = true := by decide +kernel
  have hnone : startsWith 2 (fun s => residualFails (s.step .silent).outcome) = true := by
    decide +kernel
  have hlarger : startsWith 4 (stepsTo fun e e' => !decide (e ≤ e')) = true := by decide +kernel
  refine ⟨?_, ?_, ?_⟩
  · obtain ⟨s, next, hs, hnext, hle⟩ := exists_of_stepsTo hsmaller
    obtain ⟨hreachable, hzero⟩ := reachable_startOf hs
    exact ⟨s, next, hs, hnext,
      (hreachable.dampedStep_undamped hzero .silent .silent).1 next hnext (of_decide_eq_true hle)⟩
  · obtain ⟨s, hs, hstep⟩ := exists_of_startsWith hnone
    obtain ⟨hreachable, hzero⟩ := reachable_startOf hs
    unfold residualFails at hstep
    split at hstep
    · next hstop => exact ⟨s, hs, hstop,
        (hreachable.dampedStep_undamped hzero .silent .silent).2.1 _ hstop trivial⟩
    · cases hstep
  · obtain ⟨s, next, hs, hnext, hgt⟩ := exists_of_stepsTo hlarger
    obtain ⟨hreachable, hzero⟩ := reachable_startOf hs
    have hok : ∀ next', (s.step .silent).outcome = .ok next' → ¬ next'.error ≤ s.error := by
      intro next' hnext'
      cases hnext.symm.trans hnext'
      simpa using hgt
    have herror : ∀ stop, (s.step .silent).outcome = .error stop → ¬ stop.IsFinal := by
      intro stop hstop
      cases hnext.symm.trans hstop
    obtain ⟨linear, -, hrejects, hsearch, -⟩ :=
      (hreachable.dampedStep_undamped hzero .silent .silent).2.2 hok herror
    exact ⟨s, next, linear, hs, hnext, hrejects, hsearch⟩

end Reciprocal

end Smoothing
