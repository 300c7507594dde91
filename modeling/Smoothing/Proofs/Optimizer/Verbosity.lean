import Mathlib
import Smoothing.Optimizer.Run
import Smoothing.Proofs.Optimizer.Reachable

/-!
# The verbosity selects events

A step or a run with a lower verbosity leads to the same outcome as with a higher one, and reports
some of its events, in the same order (**`Optimizer.verbosity_selects_events`**). One computation is
quieter than another (`Logged.IsQuieter`) if this holds of the two. A report that is made from some
verbosity on is quieter with a lower one (`Logged.IsQuieter.reportFrom`), and computations built in
the same way from quieter parts are quieter (`Logged.IsQuieter.bind`), so each function of the
optimizer is compared with itself along its own structure.
-/

namespace Smoothing

/-! ### Quieter computations -/

namespace Logged

variable {ν ε δ α β : Type}

/-- The first of two computations leads to the same as the second and reports some of its events, in
their order. -/
structure IsQuieter (x y : Logged ν ε α) : Prop where
  outcome_eq : x.outcome = y.outcome
  sublist : x.events.Sublist y.events

namespace IsQuieter

theorem refl (x : Logged ν ε α) : IsQuieter x x := ⟨rfl, List.Sublist.refl _⟩

theorem bind {x y : Logged ν ε α} {f g : α → Logged ν ε β} (h : IsQuieter x y)
    (hfg : ∀ a, IsQuieter (f a) (g a)) : IsQuieter (x >>= f) (y >>= g) := by
  rcases hy : y.outcome with s | a
  · have hx : x.outcome = .error s := h.outcome_eq.trans hy
    refine ⟨?_, ?_⟩
    · rw [outcome_bind_error f hx, outcome_bind_error g hy]
    · rw [events_bind_error f hx, events_bind_error g hy]
      exact h.sublist
  · have hx : x.outcome = .ok a := h.outcome_eq.trans hy
    refine ⟨?_, ?_⟩
    · rw [outcome_bind_ok f hx, outcome_bind_ok g hy]
      exact (hfg a).outcome_eq
    · rw [events_bind_ok f hx, events_bind_ok g hy]
      exact h.sublist.append (hfg a).sublist

theorem map (f : α → β) {x y : Logged ν ε α} (h : IsQuieter x y) :
    IsQuieter (f <$> x) (f <$> y) := by
  rw [← bind_pure_comp, ← bind_pure_comp]
  exact h.bind fun a => .refl _

theorem attempt {x y : Logged ν ε α} (h : IsQuieter x y) :
    IsQuieter (x.attempt : Logged ν δ _) (y.attempt : Logged ν δ _) :=
  ⟨congrArg Except.ok h.outcome_eq, h.sublist⟩

theorem reportFrom {v w : Verbosity} (h : v ≤ w) (level : Verbosity) (e : ν) :
    IsQuieter (reportIf (level ≤ v) e : Logged ν ε Unit) (reportIf (level ≤ w) e) := by
  refine ⟨by rw [outcome_reportIf, outcome_reportIf], ?_⟩
  rw [events_reportIf, events_reportIf]
  by_cases hv : level ≤ v
  · have hw : level ≤ w := Nat.le_trans hv h
    rw [if_pos (decide_eq_true hv), if_pos (decide_eq_true hw)]
  · rw [if_neg (by simpa using hv)]
    exact List.nil_sublist _

end IsQuieter

end Logged

open Logged (IsQuieter)

variable {α : Type} [Scalar α] {v w : Verbosity} (h : v ≤ w)
include h

/-! ### Steps -/

theorem Thresholds.check_isQuieter (t : Thresholds α) (current next : α) :
    IsQuieter (t.check current next v) (t.check current next w) := by
  unfold check
  split
  · exact .bind (.reportFrom h _ _) fun _ => .refl _
  · exact .bind (.reportFrom h _ _) fun _ => .refl _

namespace Optimizer

variable (s : Optimizer α)

omit [Scalar α] in
theorem reportConfig_isQuieter : IsQuieter (s.reportConfig v) (s.reportConfig w) :=
  .reportFrom h _ _

theorem linearize_isQuieter (method : Method) :
    IsQuieter (s.linearize method v) (s.linearize method w) := by
  refine .bind (.refl _) fun linear => ?_
  exact .bind (.reportFrom h _ _) fun _ => .refl _

theorem update_isQuieter : IsQuieter (s.update v) (s.update w) := by
  refine .bind (s.linearize_isQuieter h _) fun linear => ?_
  refine .bind (.refl _) fun δ => ?_
  exact .bind (.reportFrom h _ _) fun _ => .refl _

theorem step_isQuieter : IsQuieter (s.step v) (s.step w) := by
  refine .bind (s.update_isQuieter h) fun δ => ?_
  refine .bind (.refl _) fun config => ?_
  refine .bind (.refl _) fun error => ?_
  dsimp only
  split
  · exact .refl _
  · exact .bind (reportConfig_isQuieter h _) fun _ => .refl _

theorem tryUpdate_isQuieter (lambda : α) (δ : BlockVector α) :
    IsQuieter (s.tryUpdate v lambda δ) (s.tryUpdate w lambda δ) := by
  refine .bind (.reportFrom h _ _) fun _ => ?_
  refine .bind (.refl _) fun config => ?_
  refine .bind (.reportFrom h _ _) fun _ => ?_
  refine .bind (.refl _) fun error => ?_
  refine .bind (.reportFrom h _ _) fun _ => ?_
  -- whether the update is accepted depends on the error alone
  split
  · refine .bind (.reportFrom h _ _) fun _ => ?_
    refine .bind (.reportFrom h _ _) fun _ => ?_
    exact .bind (reportConfig_isQuieter h _) fun _ => .refl _
  · exact .refl _

theorem tryLambda_isQuieter (linear : GaussianGraph α) (number : ℕ) (lambda : α) :
    IsQuieter (s.tryLambda linear v number lambda) (s.tryLambda linear w number lambda) := by
  refine .bind (.reportFrom h _ _) fun _ => ?_
  refine .bind (.refl _) fun damped => ?_
  refine .bind (.reportFrom h _ _) fun _ => ?_
  refine .bind (.refl _) fun solved => ?_
  split
  · exact s.tryUpdate_isQuieter h _ _
  · exact .refl _
  · exact .refl _

/-- By induction on the dampings that are left to try: both searches try the same ones. -/
theorem search_isQuieter (linear : GaussianGraph α) (n number : ℕ) (lambda last : α) :
    IsQuieter (s.search linear v n number lambda last)
    (s.search linear w n number lambda last) := by
  induction n generalizing number lambda last with
  | zero => exact .refl _
  | succ n ih =>
    refine .bind (s.tryLambda_isQuieter h linear number lambda) fun next => ?_
    cases next with
    | some next => exact .refl _
    | none => exact ih _ _ _

theorem dampedStep_isQuieter : IsQuieter (s.dampedStep v) (s.dampedStep w) :=
  .bind (s.linearize_isQuieter h _) fun linear => s.search_isQuieter h linear _ _ _ _

/-- A damped step that stalls stalls under both verbosities. -/
theorem dampedStep?_isQuieter : IsQuieter (dampedStep? v s) (dampedStep? w s) := by
  refine .bind (s.dampedStep_isQuieter h).attempt fun result => ?_
  split <;> exact .refl _

/-! ### Runs -/

/-- By induction on the steps that are left: both runs make the same steps and end after the same
one. -/
theorem loop_isQuieter {step step' : Optimizer α → OptimizerRun α (Option (Optimizer α))}
    (hstep : ∀ s, IsQuieter (step s) (step' s)) (t : Thresholds α) (n i : ℕ) :
    IsQuieter (loop step t v n i s) (loop step' t w n i s) := by
  induction n generalizing i s with
  | zero => exact .refl _
  | succ n ih =>
    refine .bind (hstep s) fun next => ?_
    cases next with
    | none => exact .refl _
    | some next =>
      refine .bind (t.check_isQuieter h s.error next.error) fun met => ?_
      cases met with
      | true => exact .refl _
      | false => exact ih next (i + 1)

theorem run_isQuieter (method : Method)
    {step step' : Optimizer α → OptimizerRun α (Option (Optimizer α))}
    (hstep : ∀ s, IsQuieter (step s) (step' s)) (t : Thresholds α) :
    IsQuieter (s.run method step t v) (s.run method step' t w) := by
  refine .bind (.refl _) fun _ => ?_
  refine .bind (.refl _) fun _ => ?_
  refine .bind (.reportFrom h _ _) fun _ => ?_
  refine .bind (s.loop_isQuieter h hstep t _ _) fun ⟨status, iterations, last⟩ => ?_
  exact .bind (.reportFrom h _ _) fun _ => .refl _

/-- **The verbosity selects events and changes no answer**, of a step or of a run, damped or not:
with the lower of two verbosities the outcome is the same, and what is reported is a part of what is
reported with the higher one. -/
theorem verbosity_selects_events (t : Thresholds α) :
    IsQuieter (s.gaussNewton t v) (s.gaussNewton t w) ∧
      IsQuieter (s.levenbergMarquardt t v) (s.levenbergMarquardt t w) ∧
      IsQuieter (s.step v) (s.step w) ∧ IsQuieter (s.dampedStep v) (s.dampedStep w) := by
  have hstep : ∀ s : Optimizer α, IsQuieter (some <$> s.step v) (some <$> s.step w) := fun s =>
    (s.step_isQuieter h).map some
  have hdamped : ∀ s : Optimizer α, IsQuieter (dampedStep? v s) (dampedStep? w s) := fun s =>
    s.dampedStep?_isQuieter h
  exact ⟨s.run_isQuieter h _ hstep t, s.run_isQuieter h _ hdamped t, s.step_isQuieter h,
    s.dampedStep_isQuieter h⟩

end Optimizer

namespace Chain

omit h in
theorem verbosity_selects_events_start :
    ∃ s, start.outcome = .ok s ∧ Verbosity.silent ≤ Verbosity.damped ∧
      IsQuieter (s.gaussNewton ⟨0, 0⟩ .silent) (s.gaussNewton ⟨0, 0⟩ .damped) ∧
      IsQuieter (s.levenbergMarquardt ⟨0, 0⟩ .silent) (s.levenbergMarquardt ⟨0, 0⟩ .damped) ∧
      IsQuieter (s.step .silent) (s.step .damped) ∧
        IsQuieter (s.dampedStep .silent) (s.dampedStep .damped) := by
  have hok : start.outcome.isOk = true := by decide +kernel
  have hle : Verbosity.silent ≤ .damped := by decide
  obtain ⟨s, hs⟩ := Logged.exists_of_isOk hok
  exact ⟨s, hs, hle, Optimizer.verbosity_selects_events hle s ⟨0, 0⟩⟩

end Chain

end Smoothing
