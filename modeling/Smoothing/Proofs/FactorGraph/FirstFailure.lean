import Mathlib
import Smoothing.Factor.Build
import Smoothing.Proofs.Factor
import Smoothing.Proofs.FactorGraph

/-!
# The first culprit

A problem is evaluated in two passes over its factors, and each stops at the first factor it cannot
pass (`IsFirst`).

* The first pass looks for variables without a value: `FactorGraph.missing?_of_isFirst`.
* The second one evaluates the factors: `FactorGraph.each_of_isFirst`.

So the error and the linearization of a problem fail alike where a value is missing, and otherwise
each with what its own first culprit says (`FactorGraph.first_culprit_decides`). After the first
pass no factor misses a value, unless an evaluation that is not one of the library claims so
(`Factor.Misreports`, `FactorGraph.ne_missingKey`).
-/

namespace Smoothing

/-! ### First elements -/

/-- An element is the first one of a list with a property, and `i` is its place. -/
structure IsFirst {β : Type} (p : β → Prop) (xs : List β) (i : ℕ) (x : β) : Prop where
  getElem? : xs[i]? = some x
  holds : p x
  before : ∀ y ∈ xs.take i, ¬ p y

section IsFirst
variable {β : Type} {p : β → Prop} {x y : β} {xs : List β} {i : ℕ}

theorem isFirst_cons_iff : IsFirst p (x :: xs) i y ↔ (i = 0 ∧ y = x ∧ p x) ∨ ∃ n, i = n + 1 ∧
    ¬ p x ∧ IsFirst p xs n y := by
  constructor
  · rintro ⟨hy, hp, hbefore⟩
    cases i with
    | zero =>
      obtain rfl := Option.some.inj hy
      exact .inl ⟨rfl, rfl, hp⟩
    | succ n =>
      rw [List.take_succ_cons, List.forall_mem_cons] at hbefore
      exact .inr ⟨n, rfl, hbefore.1, hy, hp, hbefore.2⟩
  · rintro (⟨rfl, rfl, hp⟩ | ⟨n, rfl, hx, hy, hp, hbefore⟩)
    · exact ⟨rfl, hp, fun _ h => by cases h⟩
    · exact ⟨hy, hp, by rw [List.take_succ_cons]; exact List.forall_mem_cons.mpr ⟨hx, hbefore⟩⟩

theorem exists_isFirst (h : ∃ x ∈ xs, p x) : ∃ i x, IsFirst p xs i x := by
  induction xs with
  | nil =>
    obtain ⟨x, hx, -⟩ := h
    cases hx
  | cons x xs ih =>
    by_cases hx : p x
    · exact ⟨0, x, isFirst_cons_iff.mpr (.inl ⟨rfl, rfl, hx⟩)⟩
    · rw [List.exists_mem_cons_iff, or_iff_right hx] at h
      obtain ⟨i, y, hy⟩ := ih h
      exact ⟨i + 1, y, isFirst_cons_iff.mpr (.inr ⟨i, rfl, hx, hy⟩)⟩

theorem find?_of_isFirst {q : β → Bool} (h : IsFirst (q · = true) xs i x) :
    xs.find? q = some x := by
  induction xs generalizing i with
  | nil => cases h.getElem?
  | cons y ys ih =>
    rcases isFirst_cons_iff.mp h with ⟨-, rfl, hq⟩ | ⟨n, -, hq, hrest⟩
    · exact List.find?_cons_of_pos hq
    · rw [List.find?_cons_of_neg hq]
      exact ih hrest

end IsFirst

variable {α : Type}

/-! ### Missing values -/

/-- A variable of the factor has no value. -/
def Factor.Lacks (f : Factor α) (c : Config α) : Prop := ∃ k ∈ f.keys, c.get? k = none

/-- An evaluation that is not one of the library reports a variable as missing, though it is given
as many values as it has variables. -/
def Factor.Misreports (f : Factor α) : Prop :=
  ∃ g xs wantJacobian k, f = .custom g ∧ xs.length = g.keys.length ∧
    g.evaluate xs wantJacobian = .error (.cause (.missingKey k))

theorem Evaluated.foldlM_ne_error {ε β γ : Type} {step : γ → β → Except ε γ} {e : ε}
    (h : ∀ c b, step c b ≠ .error e) (bs : List β) (c : γ) : bs.foldlM step c ≠ .error e := by
  induction bs generalizing c with
  | nil => exact fun hc => by cases hc
  | cons b bs ih =>
    rw [List.foldlM_cons]
    intro hc
    rcases Evaluated.bind_eq_error.mp hc with hc | ⟨c', -, hc⟩
    · exact h c b hc
    · exact ih c' hc

/-- An affine evaluation does not look for values. -/
theorem Factor.not_misreports_affine [Scalar α] (keys : List Key)
    (blocks : List (Mat α)) (z : Vec α) (noise : NoiseModel α) (hasJacobian : Bool) :
    ¬ (Factor.custom (.affine keys blocks z noise hasJacobian)).Misreports := by
  rintro ⟨g, xs, wantJacobian, k, hg, -, h⟩
  cases hg
  rcases Evaluated.bind_eq_error.mp h with h | ⟨r, -, h⟩
  · refine Evaluated.foldlM_ne_error (fun r bx hstep => ?_) _ _ h
    split at hstep
    · split_ifs at hstep
      cases hstep
    · cases hstep
  · split_ifs at h
    all_goals cases h

namespace FactorGraph

variable {β γ : Type} {c : Config α} {fs : List (Factor α)} {i j : ℕ} {f : Factor α} {k : Key}

theorem missing?_of_isFirst (hf : IsFirst (·.Lacks c) fs i f)
    (hk : IsFirst (c.get? · = none) f.keys j k) (n : ℕ) :
    missing? c n fs = some (.missingKey k (.factor (n + i) f.kind)) := by
  have hfind : ∀ {g : Factor α}, ¬ g.Lacks c → g.keys.find? (fun k => !c.contains k) = none := by
    intro g hg
    refine List.find?_eq_none.mpr fun l hl hmissing => hg ⟨l, hl, ?_⟩
    simpa [KeyMap.contains] using hmissing
  induction fs generalizing i n with
  | nil => cases hf.getElem?
  | cons g gs ih =>
    rw [missing?]
    rcases isFirst_cons_iff.mp hf with ⟨rfl, rfl, -⟩ | ⟨m, rfl, hg, hrest⟩
    · have hfirst : IsFirst ((fun k => !c.contains k) · = true) f.keys j k := by
        simpa [KeyMap.contains] using hk
      rw [find?_of_isFirst hfirst]
      rfl
    · rw [hfind hg, ih hrest, Nat.add_right_comm, Nat.add_assoc]

/-! ### Evaluations in turn -/

/-- The evaluation of a factor does not answer. -/
def Fails (eval : Factor α → Evaluated α β) (f : Factor α) : Prop := ∃ s, eval f = .error s

theorem outcome_atFactor_error (i : ℕ) (s : Stop (FactorError α)) :
    (atFactor i (.error s : Evaluated α β)).outcome = .error (s.map (.factor i)) := by
  cases s <;> rfl

/-- **The second pass stops at the first factor that does not answer.** -/
theorem each_of_isFirst {eval : Factor α → Evaluated α β} {s : Stop (FactorError α)}
    (hf : IsFirst (Fails eval) fs i f) (hs : eval f = .error s) (n : ℕ) :
    (each eval n fs).outcome = .error (s.map (.factor (n + i))) := by
  induction fs generalizing i n with
  | nil => cases hf.getElem?
  | cons g gs ih =>
    rw [each]
    rcases isFirst_cons_iff.mp hf with ⟨rfl, rfl, -⟩ | ⟨m, rfl, hg, hrest⟩
    · refine Logged.outcome_bind_error _ ?_
      rw [hs, outcome_atFactor_error]
      rfl
    · cases hb : eval g with
      | error s' => exact absurd ⟨s', hb⟩ hg
      | ok b =>
        rw [Logged.outcome_bind_ok _ (outcome_atFactor_eq_ok.mpr rfl),
          Logged.outcome_bind_error _ (ih hrest (n + 1)), Nat.add_right_comm, Nat.add_assoc]

/-- All factors answer, and the answers are put together in their order; or the first factor that
does not answer decides, and does not miss a value unless its own evaluation says so. -/
def InTurn (eval : Factor α → Evaluated α β) (fs : List (Factor α)) (together : List β → γ)
    (r : Run α γ) : Prop :=
  (∃ bs, List.Forall₂ (fun f b => eval f = .ok b) fs bs ∧ r.outcome = .ok (together bs)) ∨
    ∃ i f s, IsFirst (Fails eval) fs i f ∧ eval f = .error s ∧
    r.outcome = .error (s.map (.factor i)) ∧
      ∀ k, s = .cause (.missingKey k) → f.Misreports

theorem inTurn_of_outcome_eq {eval : Factor α → Evaluated α β} {together : List β → γ} {r : Run α γ}
    (hr : r.outcome = (each eval 0 fs >>= fun bs => pure (together bs)).outcome)
    (hmissing : ∀ f ∈ fs, ∀ k, eval f = .error (.cause (.missingKey k)) → f.Misreports) :
    InTurn eval fs together r := by
  by_cases hfails : ∃ f ∈ fs, Fails eval f
  · obtain ⟨i, f, hf⟩ := exists_isFirst hfails
    obtain ⟨s, hs⟩ := hf.holds
    refine .inr ⟨i, f, s, hf, hs, ?_,
      fun k hk => hmissing f (List.mem_of_getElem? hf.getElem?) k (hk ▸ hs)⟩
    rw [hr, Logged.outcome_bind_error _ (each_of_isFirst hf hs 0), Nat.zero_add]
  · have hok : ∀ f ∈ fs, ∃ b, eval f = .ok b := by
      intro f hf
      cases hb : eval f with
      | error s => exact absurd ⟨f, hf, s, hb⟩ hfails
      | ok b => exact ⟨b, rfl⟩
    obtain ⟨bs, hbs⟩ := exists_forall₂_iff.mpr hok
    exact .inl ⟨bs, hbs, hr.trans (Logged.outcome_bind_ok _ (outcome_each_eq_ok.mpr hbs))⟩

variable [Scalar α]

theorem misreports_of_missingKey (hc : ¬ f.Lacks c)
    (h : f.linearize c = .error (.cause (.missingKey k)) ∨
      f.error c = .error (.cause (.missingKey k))) :
    f.Misreports := by
  have hvalues : ∀ k ∈ f.keys, ∃ x, c.get? k = some x := fun k hk =>
    Option.ne_none_iff_exists'.mp fun hnone => hc ⟨k, hk, hnone⟩
  obtain ⟨g, xs, wantJacobian, hg, hlen, he⟩ := Factor.custom_of_missingKey hvalues h
  exact ⟨g, xs, wantJacobian, k, hg, hlen, he⟩

section Passes
variable {g : FactorGraph α}

/-- Where a variable has no value, both computations stop in the first pass. -/
theorem exists_of_lacks (h : ∃ f ∈ g.factors, f.Lacks c) :
    ∃ i f j k, IsFirst (·.Lacks c) g.factors i f ∧ IsFirst (c.get? · = none) f.keys j k ∧
      (g.error c).outcome = .error (.cause (.missingKey k (.factor i f.kind))) ∧
      (g.linearize c).outcome = .error (.cause (.missingKey k (.factor i f.kind))) := by
  obtain ⟨i, f, hf⟩ := exists_isFirst h
  obtain ⟨j, k, hk⟩ := exists_isFirst hf.holds
  have hv : (g.validate c).outcome = .error (.cause (.missingKey k (.factor i f.kind))) := by
    rw [validate, missing?_of_isFirst hf hk, Nat.zero_add]
    rfl
  exact ⟨i, f, j, k, hf, hk, Logged.outcome_bind_error _ hv, Logged.outcome_bind_error _ hv⟩

theorem inTurn_of_forall (h : ∀ f ∈ g.factors, ¬ f.Lacks c) :
    InTurn (·.error c) g.factors Scalar.sum (g.error c) ∧
      InTurn (·.linearize c) g.factors GaussianGraph.mk (g.linearize c) := by
  have hv : (g.validate c).outcome = .ok () := validate_eq_ok_iff.mpr fun f hf k hk =>
    Option.ne_none_iff_exists'.mp fun hnone => h f hf ⟨k, hk, hnone⟩
  constructor
  · refine inTurn_of_outcome_eq (Logged.outcome_bind_ok _ hv) fun f hf _ he => ?_
    exact misreports_of_missingKey (h f hf) (.inr he)
  · refine inTurn_of_outcome_eq (Logged.outcome_bind_ok _ hv) fun f hf _ he => ?_
    exact misreports_of_missingKey (h f hf) (.inl he)

end Passes

/-- **The first culprit decides.** If a variable has no value, the error and the linearization of a
problem both name the first such variable of the first factor that has one, whatever the factors
would answer. Otherwise each of the two is put together from the answers of all factors, or fails
with the first factor that does not answer and with what it says. -/
theorem first_culprit_decides (g : FactorGraph α) (c : Config α) :
    (∃ i f j k, IsFirst (·.Lacks c) g.factors i f ∧ IsFirst (c.get? · = none) f.keys j k ∧
      (g.error c).outcome = .error (.cause (.missingKey k (.factor i f.kind))) ∧
      (g.linearize c).outcome = .error (.cause (.missingKey k (.factor i f.kind)))) ∨
    (∀ f ∈ g.factors, ¬ f.Lacks c) ∧ InTurn (·.error c) g.factors Scalar.sum (g.error c) ∧
      InTurn (·.linearize c) g.factors GaussianGraph.mk (g.linearize c) := by
  by_cases hlacks : ∃ f ∈ g.factors, f.Lacks c
  · exact .inl (exists_of_lacks hlacks)
  · have hvalues : ∀ f ∈ g.factors, ¬ f.Lacks c := fun f hf h => hlacks ⟨f, hf, h⟩
    exact .inr ⟨hvalues, inTurn_of_forall hvalues⟩

omit [Scalar α] in
theorem InTurn.ne_missingKey {eval : Factor α → Evaluated α β} {together : List β → γ} {r : Run α γ}
    (h : InTurn eval fs together r) (hfs : ∀ f ∈ fs, ¬ f.Misreports) (i : ℕ) (k : Key) :
    r.outcome ≠ .error (.cause (.factor i (.missingKey k))) := by
  intro hr
  rcases h with ⟨bs, -, hok⟩ | ⟨j, f, s, hf, -, herror, hmisreports⟩
  · rw [hok] at hr
    cases hr
  · rw [herror] at hr
    cases s with
    | sizes => cases hr
    | cause e =>
      cases hr
      exact hfs f (List.mem_of_getElem? hf.getElem?) (hmisreports k rfl)

/-- **A missing value is found by the first pass.** Neither the error nor the linearization of a
problem fails with a factor that misses a value, unless a custom factor misreports. -/
theorem ne_missingKey {g : FactorGraph α} (hg : ∀ f ∈ g.factors, ¬ f.Misreports) (c : Config α)
    (i : ℕ) (k : Key) : (g.error c).outcome ≠ .error (.cause (.factor i (.missingKey k))) ∧
      (g.linearize c).outcome ≠ .error (.cause (.factor i (.missingKey k))) := by
  by_cases hlacks : ∃ f ∈ g.factors, f.Lacks c
  · obtain ⟨_, _, _, _, -, -, herror, hlinearize⟩ := exists_of_lacks hlacks
    rw [herror, hlinearize]
    constructor
    · intro h
      cases h
    · intro h
      cases h
  · obtain ⟨herror, hlinearize⟩ := inTurn_of_forall fun f hf h => hlacks ⟨f, hf, h⟩
    exact ⟨herror.ne_missingKey hg i k, hlinearize.ne_missingKey hg i k⟩

/-- Affine custom factors do not misreport, and the other kinds of factors cannot. -/
theorem ne_missingKey_of_affine {g : FactorGraph α} (hg : ∀ f, .custom f ∈ g.factors →
      ∃ keys blocks z noise hasJacobian, f = .affine keys blocks z noise hasJacobian) (c : Config α)
      (i : ℕ) (k : Key) :
    (g.error c).outcome ≠ .error (.cause (.factor i (.missingKey k))) ∧
      (g.linearize c).outcome ≠ .error (.cause (.factor i (.missingKey k))) := by
  refine ne_missingKey (fun f hf hmisreports => ?_) c i k
  have ⟨f', _, _, _, hcustom, _⟩ := hmisreports
  subst hcustom
  obtain ⟨keys, blocks, z, noise, hasJacobian, rfl⟩ := hg f' hf
  exact Factor.not_misreports_affine keys blocks z noise hasJacobian hmisreports

end FactorGraph

end Smoothing
