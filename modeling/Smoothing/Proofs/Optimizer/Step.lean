import Mathlib
import Smoothing.Linear.Solver
import Smoothing.Optimizer.Step
import Smoothing.Scalar.Binary64

/-!
# What a step does

An undamped step moves to the update of the linearized problem (`Optimizer.step_eq_ok_iff`). A
damped step tries dampings in turn, each raised from the one before. A damping is accepted
(`Optimizer.Accepts`), rejected (`Optimizer.Rejects`), or it ends the step without an answer
(`Optimizer.Aborts`). The first damping that is not rejected decides
(`Optimizer.dampedStep_eq_ok_iff`, `Optimizer.dampedStep_eq_error_iff`); the step stalls if all of
them are rejected.
-/

namespace Smoothing

variable {α : Type} [Scalar α]

/-- Whether a damping passes the test of the damped problem: it is zero, or finite and not below
zero. -/
def Params.IsUsable (lambda : α) : Prop :=
  (lambda == 0) = true ∨ Scalar.isFinite lambda = true ∧ ¬ lambda < 0

namespace GaussianGraph

theorem outcome_damped_of_not_isUsable {g : GaussianGraph α} {lambda : α}
    (h : ¬ Params.IsUsable lambda) :
    (g.damped lambda).outcome = .error (.cause (.sizes (.damping lambda))) := by
  obtain ⟨hzero, hbad⟩ := not_or.mp h
  have : (!Scalar.isFinite lambda || decide (lambda < 0)) = true := by
    by_contra hgood
    exact hbad (by simpa using hgood)
  rw [damped, if_neg hzero, if_pos this]
  rfl

theorem outcome_damped_of_beq (g : GaussianGraph α) {lambda : α} (h : (lambda == 0) = true) :
    (g.damped lambda).outcome = .ok g := by
  rw [damped, if_pos h]
  rfl

theorem isUsable_of_damped {g d : GaussianGraph α} {lambda : α}
    (h : (g.damped lambda).outcome = .ok d) : Params.IsUsable lambda := by
  by_contra hbad
  rw [outcome_damped_of_not_isUsable hbad] at h
  cases h

end GaussianGraph

namespace Optimizer

variable {s s' : Optimizer α} {linear : GaussianGraph α} {lambda last : α} {v : Verbosity}
  {stop : Stop (OptimizerError α)}

theorem moved_eq_ok_iff {δ : BlockVector α} {c : Config α} :
    (s.moved δ).outcome = .ok c ↔ s.config.retract δ = .ok c := by
  rw [moved, Logged.outcome_lift_eq_ok]
  cases s.config.retract δ <;> simp [Except.mapError]

theorem moved_eq_error_iff {δ : BlockVector α} :
    (s.moved δ).outcome = .error stop ↔
      ∃ e, s.config.retract δ = .error e ∧ stop = .cause (.problem e) := by
  rw [moved, Logged.outcome_lift_eq_error]
  cases s.config.retract δ <;> simp [Except.mapError]

theorem errorAt_eq_ok_iff {c : Config α} {e : α} :
    (s.errorAt c).outcome = .ok e ↔ (s.graph.error c).outcome = .ok e :=
  Logged.outcome_mapCause_eq_ok

theorem linearize_eq_ok_iff {m : Method} :
    (s.linearize m v).outcome = .ok linear ↔ (s.graph.linearize s.config).outcome = .ok linear := by
  simp [linearize, Logged.outcome_bind_eq_ok, Logged.outcome_mapCause_eq_ok]

theorem linearize_eq_error_iff {m : Method} :
    (s.linearize m v).outcome = .error stop ↔
      ∃ t, (s.graph.linearize s.config).outcome = .error t ∧ t.map .problem = stop := by
  simp [linearize, Logged.outcome_bind_eq_error, Logged.outcome_mapCause_eq_error]

/-! ### Undamped steps -/

theorem update_eq_ok_iff {δ : BlockVector α} :
    (s.update v).outcome = .ok δ ↔
      ∃ linear, (s.graph.linearize s.config).outcome = .ok linear ∧
        (s.solver.solve linear s.ordering).outcome = .ok δ := by
  simp [update, Logged.outcome_bind_eq_ok, Logged.outcome_mapCause_eq_ok, linearize_eq_ok_iff]

theorem update_eq_error_iff :
    (s.update v).outcome = .error stop ↔
      (∃ t, (s.graph.linearize s.config).outcome = .error t ∧ t.map .problem = stop) ∨
        ∃ linear, (s.graph.linearize s.config).outcome = .ok linear ∧
          ∃ t, (s.solver.solve linear s.ordering).outcome = .error t ∧ t.map .linear = stop := by
  simp [update, Logged.outcome_bind_eq_error, Logged.outcome_mapCause_eq_error, linearize_eq_ok_iff,
    linearize_eq_error_iff]

theorem outcome_step_end (s : Optimizer α) (v : Verbosity) (c : Config α) (e : α) :
    (if !Scalar.isFinite e then (OptimizerError.stepError e).stop
      else (do (s.advance c e s.lambda).reportConfig v; return s.advance c e s.lambda) :
        OptimizerRun α (Optimizer α)).outcome =
      if Scalar.isFinite e then .ok (s.advance c e s.lambda)
        else .error (.cause (.stepError e)) := by
  cases Scalar.isFinite e
  · rfl
  · simp [reportConfig]

/-- **An undamped step follows the update, to an error that is finite.** -/
theorem step_eq_ok_iff :
    (s.step v).outcome = .ok s' ↔
      ∃ δ c e, (s.update v).outcome = .ok δ ∧ s.config.retract δ = .ok c ∧
      (s.graph.error c).outcome = .ok e ∧
        Scalar.isFinite e = true ∧ s' = s.advance c e s.lambda := by
  simp only [step, Logged.outcome_bind_eq_ok, moved_eq_ok_iff, errorAt_eq_ok_iff, outcome_step_end]
  constructor
  · rintro ⟨δ, hδ, c, hc, e, he, hend⟩
    split at hend
    · next hfinite =>
      cases hend
      exact ⟨δ, c, e, hδ, hc, he, hfinite, rfl⟩
    · cases hend
  · rintro ⟨δ, c, e, hδ, hc, he, hfinite, rfl⟩
    exact ⟨δ, hδ, c, hc, e, he, if_pos hfinite⟩

/-- **Why an undamped step fails.** There is no update, it cannot be applied, there is no error
after it, or this error is not finite. -/
theorem step_eq_error_iff :
    (s.step v).outcome = .error stop ↔
      (s.update v).outcome = .error stop ∨ ∃ δ, (s.update v).outcome = .ok δ ∧
        ((∃ e, s.config.retract δ = .error e ∧ stop = .cause (.problem e)) ∨
          ∃ c, s.config.retract δ = .ok c ∧
            ((∃ t, (s.graph.error c).outcome = .error t ∧ t.map .problem = stop) ∨
              ∃ e, (s.graph.error c).outcome = .ok e ∧ Scalar.isFinite e = false ∧
              stop = .cause (.stepError e))) := by
  have hend (c : Config α) (e : α) : (if Scalar.isFinite e then .ok (s.advance c e s.lambda)
      else .error (.cause (.stepError e)) : Except (Stop (OptimizerError α)) (Optimizer α)) =
      .error stop ↔
        Scalar.isFinite e = false ∧ stop = .cause (.stepError e) := by
    cases Scalar.isFinite e <;> simp [eq_comm]
  simp only [step, Logged.outcome_bind_eq_error, moved_eq_ok_iff, moved_eq_error_iff,
    errorAt_eq_ok_iff, outcome_step_end, hend]
  simp only [errorAt, Logged.outcome_mapCause_eq_error]

theorem step_of_verbosity {v' : Verbosity} (h : (s.step v).outcome = .ok s') :
    (s.step v').outcome = .ok s' := by
  obtain ⟨δ, c, e, hδ, hrest⟩ := step_eq_ok_iff.mp h
  exact step_eq_ok_iff.mpr ⟨δ, c, e, update_eq_ok_iff.mpr (update_eq_ok_iff.mp hδ), hrest⟩

/-! ### One damping -/

/-- An update solves the problem with a damping. -/
def Solves (s : Optimizer α) (linear : GaussianGraph α) (lambda : α) (δ : BlockVector α) : Prop :=
  ∃ damped, (linear.damped lambda).outcome = .ok damped ∧
    (s.solver.solve damped s.ordering).outcome = .ok δ

/-- A damping is accepted: the error after its update may follow the current one. -/
inductive Accepts (s : Optimizer α) (linear : GaussianGraph α) (lambda : α) : Optimizer α → Prop
  | intro {δ : BlockVector α} {c : Config α} {e : α} (hδ : s.Solves linear lambda δ)
      (hc : s.config.retract δ = .ok c) (he : (s.graph.error c).outcome = .ok e)
      (haccepts : s.accepts e = true) :
      Accepts s linear lambda (s.advance c e (lambda * s.params.decrease))

/-- A damping is rejected. -/
inductive Rejects (s : Optimizer α) (linear : GaussianGraph α) (lambda : α) : Prop
  /-- The damped problem cannot be solved for numerical reasons. -/
  | unsolved {damped : GaussianGraph α} {e : LinearError α}
      (hdamped : (linear.damped lambda).outcome = .ok damped)
      (hsolve : (s.solver.solve damped s.ordering).outcome = .error (.cause e))
        (hnumerical : e.isNumerical = true)
  /-- The error after the update may not follow the current one. -/
  | worse {δ : BlockVector α} {c : Config α} {e : α} (hδ : s.Solves linear lambda δ)
      (hc : s.config.retract δ = .ok c) (he : (s.graph.error c).outcome = .ok e)
      (hworse : s.accepts e = false)

/-- A damping ends the step without an answer. -/
inductive Aborts (s : Optimizer α) (linear : GaussianGraph α) (lambda : α) :
    Stop (OptimizerError α) → Prop
  /-- The damping is not zero, and not finite or below zero. -/
  | unusable (h : ¬ Params.IsUsable lambda) :
    Aborts s linear lambda (.cause (.linear (.sizes (.damping lambda))))
  /-- The widths of the variables do not agree. -/
  | widths {t : Stop (LinearError α)} (h : Params.IsUsable lambda)
      (hdamped : (linear.damped lambda).outcome = .error t) : Aborts s linear lambda (t.map .linear)
  /-- The damped problem cannot be solved, and not for numerical reasons. -/
  | unsolved {damped : GaussianGraph α} {t : Stop (LinearError α)}
      (hdamped : (linear.damped lambda).outcome = .ok damped)
      (hsolve : (s.solver.solve damped s.ordering).outcome = .error t)
      (hnumerical : ∀ e, t = .cause e → e.isNumerical = false) :
        Aborts s linear lambda (t.map .linear)
  /-- The update cannot be applied, for one because it is not finite. -/
  | update {δ : BlockVector α} {e : ProblemError α} (hδ : s.Solves linear lambda δ)
      (hc : s.config.retract δ = .error e) : Aborts s linear lambda (.cause (.problem e))
  /-- There is no error after the update, for one because a residual is not finite. -/
  | trial {δ : BlockVector α} {c : Config α} {t : Stop (ProblemError α)}
      (hδ : s.Solves linear lambda δ)
      (hc : s.config.retract δ = .ok c) (he : (s.graph.error c).outcome = .error t) :
      Aborts s linear lambda (t.map .problem)

section Damping

variable {number : ℕ} {δ : BlockVector α}

theorem outcome_tryUpdate {c : Config α} {e : α} (hc : s.config.retract δ = .ok c)
    (he : (s.graph.error c).outcome = .ok e) :
    (s.tryUpdate v lambda δ).outcome =
      .ok (if s.accepts e then some (s.advance c e (lambda * s.params.decrease)) else none) := by
  rw [tryUpdate, Logged.outcome_reportIf_bind, Logged.outcome_bind_ok _ (moved_eq_ok_iff.mpr hc),
    Logged.outcome_reportIf_bind, Logged.outcome_bind_ok _ (errorAt_eq_ok_iff.mpr he),
    Logged.outcome_reportIf_bind]
  split_ifs
  · simp [reportConfig]
  · rfl

theorem outcome_tryUpdate_of_retract {e : ProblemError α} (hc : s.config.retract δ = .error e) :
    (s.tryUpdate v lambda δ).outcome = .error (.cause (.problem e)) := by
  rw [tryUpdate, Logged.outcome_reportIf_bind]
  exact Logged.outcome_bind_error _ (moved_eq_error_iff.mpr ⟨e, hc, rfl⟩)

theorem outcome_tryUpdate_of_error {c : Config α} {t : Stop (ProblemError α)}
    (hc : s.config.retract δ = .ok c) (he : (s.graph.error c).outcome = .error t) :
    (s.tryUpdate v lambda δ).outcome = .error (t.map .problem) := by
  rw [tryUpdate, Logged.outcome_reportIf_bind, Logged.outcome_bind_ok _ (moved_eq_ok_iff.mpr hc),
    Logged.outcome_reportIf_bind]
  exact Logged.outcome_bind_error _ (Logged.outcome_mapCause_eq_error.mpr ⟨t, he, rfl⟩)

theorem outcome_tryLambda_of_damped {t : Stop (LinearError α)}
    (h : (linear.damped lambda).outcome = .error t) :
    (s.tryLambda linear v number lambda).outcome = .error (t.map .linear) := by
  rw [tryLambda, Logged.outcome_reportIf_bind]
  exact Logged.outcome_bind_error _ (Logged.outcome_mapCause_eq_error.mpr ⟨t, h, rfl⟩)

theorem outcome_tryLambda {damped : GaussianGraph α}
    (h : (linear.damped lambda).outcome = .ok damped) :
    (s.tryLambda linear v number lambda).outcome =
      match (s.solver.solve damped s.ordering).outcome with
      | .ok δ => (s.tryUpdate v lambda δ).outcome
      | .error .sizes => .error .sizes
      | .error (.cause e) => if e.isNumerical then .ok none else .error (.cause (.linear e)) := by
  rw [tryLambda, Logged.outcome_reportIf_bind,
    Logged.outcome_bind_ok _ (Logged.outcome_mapCause_eq_ok.mpr h), Logged.outcome_reportIf_bind,
    Logged.outcome_attempt_bind]
  rcases (s.solver.solve damped s.ordering).outcome with (e | _) | δ
  · dsimp only
    split_ifs
    · exact Logged.outcome_report_bind _ _
    · rfl
  · rfl
  · rfl

theorem Solves.outcome_tryLambda (h : s.Solves linear lambda δ) :
    (s.tryLambda linear v number lambda).outcome = (s.tryUpdate v lambda δ).outcome := by
  obtain ⟨damped, hdamped, hsolve⟩ := h
  rw [Optimizer.outcome_tryLambda hdamped, hsolve]

theorem Accepts.outcome_tryLambda (h : s.Accepts linear lambda s') :
    (s.tryLambda linear v number lambda).outcome = .ok (some s') := by
  obtain ⟨hδ, hc, he, haccepts⟩ := h
  rw [hδ.outcome_tryLambda, outcome_tryUpdate hc he, if_pos haccepts]

theorem Rejects.outcome_tryLambda (h : s.Rejects linear lambda) :
    (s.tryLambda linear v number lambda).outcome = .ok none := by
  cases h with
  | unsolved hdamped hsolve hnumerical =>
    rw [Optimizer.outcome_tryLambda hdamped, hsolve]
    exact if_pos hnumerical
  | worse hδ hc he hworse =>
    rw [hδ.outcome_tryLambda, outcome_tryUpdate hc he, if_neg (by simp [hworse])]

theorem Aborts.outcome_tryLambda (h : s.Aborts linear lambda stop) :
    (s.tryLambda linear v number lambda).outcome = .error stop := by
  cases h with
  | unusable h => exact outcome_tryLambda_of_damped (GaussianGraph.outcome_damped_of_not_isUsable h)
  | widths _ hdamped => exact outcome_tryLambda_of_damped hdamped
  | @unsolved damped t hdamped hsolve hnumerical =>
    rw [Optimizer.outcome_tryLambda hdamped, hsolve]
    cases t with
    | sizes => rfl
    | cause e => exact if_neg (by simp [hnumerical e rfl])
  | update hδ hc => rw [hδ.outcome_tryLambda, outcome_tryUpdate_of_retract hc]
  | trial hδ hc he => rw [hδ.outcome_tryLambda, outcome_tryUpdate_of_error hc he]

/-- **A damping is accepted or rejected, or it ends the step.** -/
theorem accepts_or_rejects_or_aborts (s : Optimizer α) (linear : GaussianGraph α) (lambda : α) :
    (∃ s', s.Accepts linear lambda s') ∨ s.Rejects linear lambda ∨
    ∃ stop, s.Aborts linear lambda stop := by
  by_cases husable : Params.IsUsable lambda
  swap
  · exact .inr (.inr ⟨_, .unusable husable⟩)
  rcases hdamped : (linear.damped lambda).outcome with t | damped
  · exact .inr (.inr ⟨_, .widths husable hdamped⟩)
  rcases hsolve : (s.solver.solve damped s.ordering).outcome with t | δ
  · by_cases hnumerical : ∃ e, t = .cause e ∧ e.isNumerical = true
    · obtain ⟨e, rfl, he⟩ := hnumerical
      exact .inr (.inl (.unsolved hdamped hsolve he))
    · refine .inr (.inr ⟨_, .unsolved hdamped hsolve fun e he => ?_⟩)
      simpa using fun h => hnumerical ⟨e, he, h⟩
  have hδ : s.Solves linear lambda δ := ⟨damped, hdamped, hsolve⟩
  rcases hc : s.config.retract δ with e | c
  · exact .inr (.inr ⟨_, .update hδ hc⟩)
  rcases he : (s.graph.error c).outcome with t | e
  · exact .inr (.inr ⟨_, .trial hδ hc he⟩)
  cases haccepts : s.accepts e with
  | true => exact .inl ⟨_, .intro hδ hc he haccepts⟩
  | false => exact .inr (.inl (.worse hδ hc he haccepts))

end Damping

/-! ### Damped steps -/

/-- The damping that was tried last, when all of `n` were tried and rejected. -/
def lastTried (s : Optimizer α) : ℕ → α → α → α
  | 0, _, last => last
  | n + 1, lambda, _ => lastTried s n (s.raised lambda) lambda

theorem lastTried_succ (s : Optimizer α) (n : ℕ) (lambda last : α) :
    s.lastTried (n + 1) lambda last = s.raised^[n] lambda := by
  induction n generalizing lambda last with
  | zero => rfl
  | succ n ih => rw [lastTried, ih, Function.iterate_succ_apply]

/-- The search of a step starts with the damping as the last one. -/
theorem lastTried_self (s : Optimizer α) (n : ℕ) (lambda : α) :
    s.lastTried n lambda lambda = s.raised^[n - 1] lambda := by
  cases n with
  | zero => rfl
  | succ n => exact s.lastTried_succ n lambda lambda

section Search

variable {i n number : ℕ}

theorem Accepts.outcome_search (h : s.Accepts linear lambda s') :
    (s.search linear v (n + 1) number lambda last).outcome = .ok s' :=
  Logged.outcome_bind_ok _ h.outcome_tryLambda

theorem Rejects.outcome_search (h : s.Rejects linear lambda) :
    (s.search linear v (n + 1) number lambda last).outcome =
      (s.search linear v n (number + 1) (s.raised lambda) lambda).outcome :=
  Logged.outcome_bind_ok _ h.outcome_tryLambda

theorem Aborts.outcome_search (h : s.Aborts linear lambda stop) :
    (s.search linear v (n + 1) number lambda last).outcome = .error stop :=
  Logged.outcome_bind_error _ h.outcome_tryLambda

theorem outcome_search_add (h : ∀ j < i, s.Rejects linear (s.raised^[j] lambda)) :
    (s.search linear v (i + n) number lambda last).outcome =
      (s.search linear v n (number + i) (s.raised^[i] lambda)
        (s.lastTried i lambda last)).outcome := by
  induction i generalizing number lambda last with
  | zero => rw [Nat.zero_add, Nat.add_zero, Function.iterate_zero_apply, lastTried]
  | succ i ih =>
    have hfirst : s.Rejects linear lambda := h 0 (Nat.zero_lt_succ i)
    have hrest : ∀ j < i, s.Rejects linear (s.raised^[j] (s.raised lambda)) := fun j hj =>
      h (j + 1) (Nat.succ_lt_succ hj)
    rw [Nat.add_right_comm, hfirst.outcome_search, ih hrest, Function.iterate_succ_apply, lastTried,
      Nat.add_right_comm, Nat.add_assoc]

theorem outcome_search_of_accepts (hi : i < n)
    (hrejects : ∀ j < i, s.Rejects linear (s.raised^[j] lambda))
    (h : s.Accepts linear (s.raised^[i] lambda) s') :
    (s.search linear v n number lambda last).outcome = .ok s' := by
  obtain ⟨m, rfl⟩ := Nat.exists_eq_add_of_lt hi
  rw [Nat.add_assoc, outcome_search_add hrejects, h.outcome_search]

theorem outcome_search_of_aborts (hi : i < n)
    (hrejects : ∀ j < i, s.Rejects linear (s.raised^[j] lambda))
    (h : s.Aborts linear (s.raised^[i] lambda) stop) :
    (s.search linear v n number lambda last).outcome = .error stop := by
  obtain ⟨m, rfl⟩ := Nat.exists_eq_add_of_lt hi
  rw [Nat.add_assoc, outcome_search_add hrejects, h.outcome_search]

theorem outcome_search_of_rejects (hrejects : ∀ j < n, s.Rejects linear (s.raised^[j] lambda)) :
    (s.search linear v n number lambda last).outcome =
      .error (.cause (.stalled s.params.maxAttempts (s.lastTried n lambda last) s.error)) :=
  outcome_search_add (n := 0) hrejects

/-- All dampings are rejected, or there is a first one that is not. -/
theorem rejects_or_first (s : Optimizer α) (linear : GaussianGraph α) (lambda : α) (n : ℕ) :
    (∀ j < n, s.Rejects linear (s.raised^[j] lambda)) ∨
      ∃ i < n, (∀ j < i, s.Rejects linear (s.raised^[j] lambda)) ∧
        ((∃ s', s.Accepts linear (s.raised^[i] lambda) s') ∨
          ∃ stop, s.Aborts linear (s.raised^[i] lambda) stop) := by
  induction n with
  | zero => exact .inl fun j hj => absurd hj (Nat.not_lt_zero j)
  | succ n ih =>
    rcases ih with hall | ⟨i, hi, hfirst⟩
    · rcases s.accepts_or_rejects_or_aborts linear (s.raised^[n] lambda)
        with haccepts | hrejects | haborts
      · exact .inr ⟨n, n.lt_succ_self, hall, .inl haccepts⟩
      · refine .inl fun j hj => ?_
        rcases Nat.lt_succ_iff_lt_or_eq.mp hj with hj | rfl
        · exact hall j hj
        · exact hrejects
      · exact .inr ⟨n, n.lt_succ_self, hall, .inr haborts⟩
    · exact .inr ⟨i, Nat.lt_succ_of_lt hi, hfirst⟩

theorem search_eq_ok_iff :
    (s.search linear v n number lambda last).outcome = .ok s' ↔
      ∃ i < n, (∀ j < i, s.Rejects linear (s.raised^[j] lambda)) ∧
      s.Accepts linear (s.raised^[i] lambda) s' := by
  constructor
  · intro h
    rcases s.rejects_or_first linear lambda n
      with hall | ⟨i, hi, hrejects, ⟨s'', haccepts⟩ | ⟨stop, haborts⟩⟩
    · rw [outcome_search_of_rejects hall] at h
      cases h
    · rw [outcome_search_of_accepts hi hrejects haccepts] at h
      exact ⟨i, hi, hrejects, Except.ok.inj h ▸ haccepts⟩
    · rw [outcome_search_of_aborts hi hrejects haborts] at h
      cases h
  · rintro ⟨i, hi, hrejects, haccepts⟩
    exact outcome_search_of_accepts hi hrejects haccepts

theorem search_eq_error_iff :
    (s.search linear v n number lambda last).outcome = .error stop ↔
      (∃ i < n, (∀ j < i, s.Rejects linear (s.raised^[j] lambda)) ∧
        s.Aborts linear (s.raised^[i] lambda) stop) ∨
        (∀ j < n, s.Rejects linear (s.raised^[j] lambda)) ∧
          stop = .cause (.stalled s.params.maxAttempts (s.lastTried n lambda last) s.error) := by
  constructor
  · intro h
    rcases s.rejects_or_first linear lambda n
      with hall | ⟨i, hi, hrejects, ⟨s'', haccepts⟩ | ⟨stop', haborts⟩⟩
    · rw [outcome_search_of_rejects hall] at h
      exact .inr ⟨hall, (Except.error.inj h).symm⟩
    · rw [outcome_search_of_accepts hi hrejects haccepts] at h
      cases h
    · rw [outcome_search_of_aborts hi hrejects haborts] at h
      exact .inl ⟨i, hi, hrejects, Except.error.inj h ▸ haborts⟩
  · rintro (⟨i, hi, hrejects, haborts⟩ | ⟨hall, rfl⟩)
    · exact outcome_search_of_aborts hi hrejects haborts
    · exact outcome_search_of_rejects hall

end Search

theorem outcome_dampedStep (hlinear : (s.graph.linearize s.config).outcome = .ok linear) :
    (s.dampedStep v).outcome =
    (s.search linear v s.params.maxAttempts 1 s.lambda s.lambda).outcome :=
  Logged.outcome_bind_ok _ (linearize_eq_ok_iff.mpr hlinear)

/-- **What a damped step answers.** The state of the first damping that is not rejected. -/
theorem dampedStep_eq_ok_iff :
    (s.dampedStep v).outcome = .ok s' ↔
      ∃ linear, (s.graph.linearize s.config).outcome = .ok linear ∧
        ∃ i < s.params.maxAttempts, (∀ j < i, s.Rejects linear (s.raised^[j] s.lambda)) ∧
          s.Accepts linear (s.raised^[i] s.lambda) s' := by
  simp only [dampedStep, Logged.outcome_bind_eq_ok, linearize_eq_ok_iff, search_eq_ok_iff]

/-- **Why a damped step fails.** The problem cannot be linearized, or the first damping that is not
rejected ends the step: it is not usable, or the damped problem cannot be solved for a reason that
is not numerical, or the update cannot be applied, or there is no error after it. If all dampings
are rejected, the step stalls at the last one. -/
theorem dampedStep_eq_error_iff :
    (s.dampedStep v).outcome = .error stop ↔
      (∃ t, (s.graph.linearize s.config).outcome = .error t ∧ t.map .problem = stop) ∨
        ∃ linear, (s.graph.linearize s.config).outcome = .ok linear ∧
          ((∃ i < s.params.maxAttempts, (∀ j < i, s.Rejects linear (s.raised^[j] s.lambda)) ∧
              s.Aborts linear (s.raised^[i] s.lambda) stop) ∨
            (∀ j < s.params.maxAttempts, s.Rejects linear (s.raised^[j] s.lambda)) ∧
              stop = .cause (.stalled s.params.maxAttempts
                (s.raised^[s.params.maxAttempts - 1] s.lambda) s.error)) := by
  simp only [dampedStep, Logged.outcome_bind_eq_error, linearize_eq_error_iff, linearize_eq_ok_iff,
    search_eq_error_iff, lastTried_self]

end Optimizer

/-! ### A step beyond the domain of a residual

One variable `x`, measured through `1 / x`. From `x = 1` the undamped update leads to zero, where
the residual is not finite. A damped step could reject that update and raise its damping; it fails
instead. -/

namespace Reciprocal

def x : Key := ⟨'x', 1⟩

/-- The function `1 / x` of every coordinate. -/
def measurement : Measurement Float where
  value x := some (x.map (1 / ·))
  jacobian x := some (Mat.diagonal (x.map fun a => -(1 / (a * a))))

/-- Measures `1 / x` as two. -/
def graph : FactorGraph Float := ⟨[.function ⟨x, ⟨[2.0]⟩, ⟨.unit, Mat.identity 1⟩, measurement⟩]⟩

/-- The state at `x = 1`, without damping. -/
def start : OptimizerRun Float (Optimizer Float) := do
  let s ← Optimizer.build graph (KeyMap.empty.insert x (.rn ⟨[1.0]⟩)) (.natural graph)
    DirectMethod.qr.solver
  s.withLambda 0

/-- The update that the first damping leads to. -/
def firstUpdate (s : Optimizer Float) : OptimizerRun Float (BlockVector Float) := do
  let linear ← s.linearize .levenbergMarquardt .silent
  let damped ← (linear.damped s.lambda).mapCause .linear
  (s.solver.solve damped s.ordering).mapCause .linear

/-- Whether a computation fails for a residual that is not finite. -/
def residualFails {β : Type} : Except (Stop (OptimizerError Float)) β → Bool
  | .error (.cause (.problem (.factor 0 .residualNotFinite))) => true
  | _ => false

/-- The problem can be linearized, the damping can be used and the damped problem has a solution,
and still the step fails, although no damping was rejected. -/
theorem dampedStep_fails :
    ∃ s linear δ, start.outcome = .ok s ∧ (s.graph.linearize s.config).outcome = .ok linear ∧
      Params.IsUsable s.lambda ∧ s.Solves linear s.lambda δ ∧
      (s.dampedStep .silent).outcome =
        .error (.cause (.problem (.factor 0 .residualNotFinite))) := by
  have hupdate : (start >>= firstUpdate).outcome.isOk = true := by decide +kernel
  have hstep : residualFails (start >>= fun s => s.dampedStep .silent).outcome = true := by
    decide +kernel
  obtain ⟨δ, hδ⟩ := Logged.exists_of_isOk hupdate
  obtain ⟨s, hs, hδ⟩ := Logged.outcome_bind_eq_ok.mp hδ
  obtain ⟨linear, hlinear, hδ⟩ := Logged.outcome_bind_eq_ok.mp hδ
  obtain ⟨damped, hdamped, hδ⟩ := Logged.outcome_bind_eq_ok.mp hδ
  rw [Logged.outcome_mapCause_eq_ok] at hdamped hδ
  refine ⟨s, linear, δ, hs, Optimizer.linearize_eq_ok_iff.mp hlinear,
    GaussianGraph.isUsable_of_damped hdamped, ⟨damped, hdamped, hδ⟩, ?_⟩
  rw [Logged.outcome_bind_ok _ hs] at hstep
  unfold residualFails at hstep
  split at hstep
  · assumption
  · cases hstep

end Reciprocal

end Smoothing
