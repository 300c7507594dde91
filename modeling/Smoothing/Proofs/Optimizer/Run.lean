import Mathlib
import Smoothing.Optimizer.Run

/-!
# How runs end

A run makes steps that do not meet the thresholds (`Optimizer.Continues`) for as long as it can. It
ends at the iteration cap, when a step stalls, or with a step that meets the thresholds
(`Optimizer.Ends`, `Optimizer.run_ends`).
-/

namespace Smoothing

/-- A number of steps in a row. -/
inductive Steps {σ : Type} (R : σ → σ → Prop) : ℕ → σ → σ → Prop
  | none (s : σ) : Steps R 0 s s
  | cons {n : ℕ} {s t u : σ} (h : R s t) (hs : Steps R n t u) : Steps R (n + 1) s u

namespace Steps

variable {σ : Type} {R : σ → σ → Prop} {n m : ℕ} {s t u : σ}

theorem reflTransGen (h : Steps R n s t) : Relation.ReflTransGen R s t := by
  induction h with
  | none s => exact .refl
  | cons h _ ih => exact .head h ih

theorem invariant {P : σ → Prop} (hP : ∀ a b, P a → R a b → P b) (h : Steps R n s t) (hs : P s) :
    P t := by
  induction h with
  | none s => exact hs
  | cons h _ ih => exact ih (hP _ _ hs h)

theorem exists_of_lt (hR : Relator.RightUnique R) (h : Steps R n s t) (h' : Steps R m s u)
    (hnm : n < m) : ∃ b, R t b := by
  induction h generalizing m u with
  | none s =>
    cases h' with
    | none => exact absurd hnm (lt_irrefl 0)
    | cons h _ => exact ⟨_, h⟩
  | cons h _ ih =>
    cases h' with
    | none => exact absurd hnm (Nat.not_lt_zero _)
    | cons h₂ hs₂ =>
      rw [hR h h₂] at ih
      exact ih hs₂ (Nat.lt_of_succ_lt_succ hnm)

end Steps

namespace Optimizer

variable {α : Type} [Scalar α] {s s' : Optimizer α} {v : Verbosity} {t : Thresholds α}
  {r : Report α} {step : Optimizer α → OptimizerRun α (Option (Optimizer α))}

/-! ### Steps of a run -/

theorem dampedStep?_eq_some_iff :
    (dampedStep? v s).outcome = .ok (some s') ↔ (s.dampedStep v).outcome = .ok s' := by
  rw [dampedStep?, Logged.outcome_attempt_bind]
  split
  · next h => simp [h]
  · next h => simp [h, Logged.outcome_map, Except.map]
  · next h => simp [h, Logged.ofOutcome]

theorem dampedStep?_eq_none_iff :
    (dampedStep? v s).outcome = .ok none ↔
      ∃ attempts lambda error, (s.dampedStep v).outcome =
      .error (.cause (.stalled attempts lambda error)) := by
  rw [dampedStep?, Logged.outcome_attempt_bind]
  split
  · next h => simp [h]
  · next h => simp [h, Logged.outcome_map, Except.map]
  · next stop hstop h =>
    simp only [h, Logged.ofOutcome, reduceCtorEq, Except.error.injEq, false_iff, not_exists]
    exact hstop

theorem some_step_eq_some_iff :
    (some <$> s.step v).outcome = .ok (some s') ↔ (s.step v).outcome = .ok s' := by
  simp [Logged.outcome_map_eq_ok]

theorem some_step_ne_none : ¬ (some <$> s.step v).outcome = .ok none := by
  simp [Logged.outcome_map_eq_ok]

/-! ### The loop -/

/-- A step after which a run goes on: it does not meet the thresholds. -/
def Continues (step : Optimizer α → OptimizerRun α (Option (Optimizer α))) (t : Thresholds α)
    (s next : Optimizer α) : Prop :=
  (step s).outcome = .ok (some next) ∧ t.met s.error next.error = false

theorem Continues.rightUnique : Relator.RightUnique (Continues step t) := fun _ _ _ hb hc => by
  simpa using hb.1.symm.trans hc.1

/-- How a run of at most `n` steps ends: with what status, after how many steps, and in which
state. -/
inductive Ends (step : Optimizer α → OptimizerRun α (Option (Optimizer α)))
    (t : Thresholds α) (n : ℕ) (s : Optimizer α) : Status → ℕ → Optimizer α → Prop
  /-- All steps were made and none met the thresholds. -/
  | cap {last : Optimizer α} (h : Steps (Continues step t) n s last) :
    Ends step t n s .maxIterations n last
  /-- The step from the last state stalls. -/
  | stalled {k : ℕ} {last : Optimizer α} (hk : k < n) (h : Steps (Continues step t) k s last)
      (hstep : (step last).outcome = .ok none) : Ends step t n s .stalled k last
  /-- The last step meets the thresholds. It is kept if it does not raise the error. -/
  | converged {k : ℕ} {last next : Optimizer α} (hk : k < n) (h : Steps (Continues step t) k s last)
      (hstep : (step last).outcome = .ok (some next)) (hmet : t.met last.error next.error = true) :
      Ends step t n s .converged (k + 1) (if next.error ≤ last.error then next else last)

theorem Ends.cons {n k : ℕ} {next last : Optimizer α} {status : Status}
    (h : Continues step t s next) (hends : Ends step t n next status k last) :
    Ends step t (n + 1) s status (k + 1) last := by
  cases hends with
  | cap hs => exact .cap (.cons h hs)
  | stalled hk hs hstep => exact .stalled (Nat.succ_lt_succ hk) (.cons h hs) hstep
  | converged hk hs hstep hmet => exact .converged (Nat.succ_lt_succ hk) (.cons h hs) hstep hmet

theorem outcome_loop_succ {n i : ℕ} (hstep : (step s).outcome = .ok (some s')) :
    (loop step t v (n + 1) i s).outcome = if t.met s.error s'.error then
    .ok (.converged, i + 1, s.better s')
      else (loop step t v n (i + 1) s').outcome := by
  rw [loop, Logged.outcome_bind_ok _ hstep]
  dsimp only
  rw [Logged.outcome_bind_ok _ (t.outcome_check _ _ _)]
  split_ifs <;> rfl

/-- **How a loop ends.** -/
theorem loop_ends {n i j : ℕ} {status : Status} {last : Optimizer α}
    (h : (loop step t v n i s).outcome = .ok (status, j, last)) :
    ∃ k, j = i + k ∧ Ends step t n s status k last := by
  induction n generalizing i s with
  | zero =>
    cases h
    exact ⟨0, rfl, .cap (.none _)⟩
  | succ n ih =>
    obtain ⟨next?, hstep, hnext⟩ := Logged.outcome_bind_eq_ok.mp h
    cases next? with
    | none =>
      cases hnext
      exact ⟨0, rfl, .stalled n.succ_pos (.none _) hstep⟩
    | some next =>
      rw [outcome_loop_succ hstep] at h
      split_ifs at h with hmet
      · cases h
        exact ⟨1, rfl, .converged n.succ_pos (.none s) hstep hmet⟩
      · obtain ⟨k, rfl, hends⟩ := ih h
        exact ⟨k + 1, by omega, .cons ⟨hstep, by simpa using hmet⟩ hends⟩

theorem outcome_run {method : Method} {status : Status} {iterations : ℕ} {last : Optimizer α}
    (ht : t.validate.outcome = .ok ())
    (hloop : (loop step t v s.params.maxIterations 0 s).outcome = .ok (status, iterations, last)) :
    (s.run method step t v).outcome = .ok ⟨last, status, iterations, s.error⟩ := by
  rw [run, Logged.outcome_bind_ok _ ht, Params.reportAll, Logged.outcome_report_bind,
    Logged.outcome_reportIf_bind, Logged.outcome_bind_ok _ hloop]
  exact Logged.outcome_reportIf_bind _ _ _

/-- **How a run ends.** The thresholds are not negative, and the report says how the loop ended. -/
theorem run_ends {method : Method} (h : (s.run method step t v).outcome = .ok r) :
    Params.isDamping t.relative = true ∧ Params.isDamping t.absolute = true ∧
    r.initialError = s.error ∧
      Ends step t s.params.maxIterations s r.status r.iterations r.optimizer := by
  obtain ⟨_, hvalid, h⟩ := Logged.outcome_bind_eq_ok.mp h
  rw [Params.reportAll, Logged.outcome_report_bind, Logged.outcome_reportIf_bind] at h
  obtain ⟨⟨status, iterations, last⟩, hloop, h⟩ := Logged.outcome_bind_eq_ok.mp h
  rw [Logged.outcome_reportIf_bind] at h
  cases h
  obtain ⟨k, rfl, hends⟩ := loop_ends hloop
  rw [Nat.zero_add]
  unfold Thresholds.validate at hvalid
  split at hvalid
  · next hthresholds =>
    rw [Bool.and_eq_true] at hthresholds
    exact ⟨hthresholds.1, hthresholds.2, rfl, hends⟩
  · cases hvalid

namespace Ends

variable {n k : ℕ} {status : Status} {last : Optimizer α}

/-- The last state is reached by steps that continue the run, and one that ends it. -/
theorem reflTransGen (h : Ends step t n s status k last) :
    Relation.ReflTransGen (fun a b => (step a).outcome = .ok (some b)) s last := by
  have hsteps : ∀ {k last}, Steps (Continues step t) k s last →
      Relation.ReflTransGen (fun a b => (step a).outcome = .ok (some b)) s last :=
    fun hs => hs.reflTransGen.lift id fun _ _ hab => hab.1
  cases h with
  | cap hs => exact hsteps hs
  | stalled _ hs _ => exact hsteps hs
  | converged _ hs hstep _ =>
    split_ifs
    · exact (hsteps hs).tail hstep
    · exact hsteps hs

theorem iterations_le (h : Ends step t n s status k last) : k ≤ n := by
  cases h with
  | cap _ => exact le_rfl
  | stalled hk _ _ => exact hk.le
  | converged hk _ _ _ => exact hk

theorem step_eq_none (h : Ends step t n s .stalled k last) : (step last).outcome = .ok none := by
  cases h with
  | stalled _ _ hstep => exact hstep

/-- A run ends at the cap exactly if all of its steps continue it. -/
theorem maxIterations_iff (h : Ends step t n s status k last) :
    status = .maxIterations ↔ ∃ last, Steps (Continues step t) n s last := by
  cases h with
  | cap hs => exact ⟨fun _ => ⟨_, hs⟩, fun _ => rfl⟩
  | stalled hk hs hstep =>
    refine ⟨fun h => (nomatch h), fun ⟨u, hu⟩ => ?_⟩
    obtain ⟨b, hb⟩ := hs.exists_of_lt Continues.rightUnique hu hk
    exact nomatch hstep.symm.trans hb.1
  | converged hk hs hstep hmet =>
    refine ⟨fun h => (nomatch h), fun ⟨u, hu⟩ => ?_⟩
    obtain ⟨b, hb⟩ := hs.exists_of_lt Continues.rightUnique hu hk
    have hnext := Except.ok.inj (hstep.symm.trans hb.1)
    rw [Option.some.inj hnext, hb.2] at hmet
    cases hmet

end Ends

end Optimizer

end Smoothing
