import Mathlib
import Smoothing.Proofs.Factor.Affine
import Smoothing.Proofs.FactorGraph

/-!
# A linearization starts at the error

Errors and linearizations are separate computations: one evaluates the factors without Jacobians and
the other with them, and a hard constraint has an error that is not that of its residual. They
agree. Where a problem is linearized it has an error, and without hard constraints that is the error
of its linearization at the update zero. Each linear factor is the whitened factor: its right-hand
side is the whitened residual with the other sign, and its blocks side by side are the whitened
Jacobian (`Factor.IsWhitened`). A hard constraint that is linearized holds and has the error zero.
All of this is `FactorGraph.error_of_linearize`.
-/

namespace Smoothing

variable {α : Type} [Scalar α]

/-! ### Blocks side by side -/

namespace Mat

/-- The matrices side by side, all of one height. -/
def sideBySide (height : ℕ) (ms : List (Mat α)) : Mat α := ms.foldr beside (zero height 0)

theorem height_sideBySide {height : ℕ} {ms : List (Mat α)} (h : ∀ m ∈ ms, m.height = height) :
    (sideBySide height ms).height = height := by
  induction ms with
  | nil => exact height_zero height 0
  | cons m ms ih =>
    obtain ⟨hm, hms⟩ := List.forall_mem_cons.mp h
    exact (height_beside ((ih hms).trans hm.symm)).trans hm

theorem cols_sideBySide (height : ℕ) (ms : List (Mat α)) :
    (sideBySide height ms).cols = (ms.map cols).foldr (· + ·) 0 := by
  induction ms with
  | nil => rfl
  | cons m ms ih => exact congrArg (m.cols + ·) ih

theorem get_sideBySide_splitColumns (m : Mat α) {start : ℕ} {ws : List ℕ}
    (h : m.cols = start + ws.foldr (· + ·) 0) (i j : ℕ) :
    (sideBySide m.height (Factor.splitColumns m start ws)).get i j = m.get i (start + j) := by
  induction ws generalizing start j with
  | nil =>
    rw [get_of_cols_le (Nat.zero_le j), get_of_cols_le]
    exact h.le.trans (Nat.add_le_add_left (Nat.zero_le j) start)
  | cons w ws ih =>
    rw [List.foldr_cons] at h
    have hrest : (sideBySide m.height (Factor.splitColumns m (start + w) ws)).height =
        (m.columns start w).height := by
      rw [height_sideBySide fun b hb => Factor.height_of_mem_splitColumns hb, height_columns]
    have hw : (m.columns start w).cols = w := by
      change min w (m.cols - start) = w
      omega
    change ((m.columns start w).beside
      (sideBySide m.height (Factor.splitColumns m (start + w) ws))).get i j = _
    rw [get_beside hrest, hw, get_columns]
    split_ifs with hj
    · rfl
    · rw [ih (by omega), show start + w + (j - w) = start + j by omega]

/-- **Splitting the columns of a matrix and putting the blocks side by side** gives the matrix. -/
theorem sideBySide_splitColumns {m : Mat α} {ws : List ℕ} (h : m.cols = ws.foldr (· + ·) 0) :
    sideBySide m.height (Factor.splitColumns m 0 ws) = m := by
  have h0 : m.cols = 0 + ws.foldr (· + ·) 0 := h.trans (Nat.zero_add _).symm
  refine ext_get (height_sideBySide fun b hb => Factor.height_of_mem_splitColumns hb) ?_
    fun i _ j _ => ?_
  · rw [cols_sideBySide, Factor.cols_splitColumns h0, h]
  · rw [get_sideBySide_splitColumns m h0, Nat.zero_add]

end Mat

/-! ### Residuals with and without a Jacobian -/

/-- An evaluation gives the same residual whether or not it is asked for a Jacobian. -/
def CustomFactor.SameResidual (f : CustomFactor α) : Prop :=
  ∀ xs r, f.evaluate xs true = .ok r → ∃ r', f.evaluate xs false = .ok r' ∧ r'.value = r.value

namespace Factor

variable {f : Factor α} {c : Config α} {l : GaussianFactor α}

/-- **A residual with a Jacobian is the residual without it**, for all kinds of factors. -/
theorem exists_evaluate_false {xs : List (Value α)} {r : Residual α}
    (hcustom : ∀ g, f = .custom g → g.SameResidual) (h : f.evaluate xs true = .ok r) :
    ∃ r', f.evaluate xs false = .ok r' ∧ r'.value = r.value := by
  cases f with
  | prior f =>
    change f.evaluate xs true = _ at h
    cases xs with
    | nil => cases h
    | cons x xs =>
      obtain ⟨e, he, h⟩ := Evaluated.bind_eq_ok.mp h
      cases h
      exact ⟨_, Evaluated.bind_eq_ok.mpr ⟨e, he, rfl⟩, rfl⟩
  | between f =>
    change f.evaluate xs true = _ at h
    change ∃ r', f.evaluate xs false = _ ∧ _
    unfold BetweenFactor.evaluate at h ⊢
    split at h
    · split at h
      · split_ifs at h with hx hy
        cases h
        exact ⟨_, (if_neg hx).trans (if_neg hy), rfl⟩
      · cases h
        exact ⟨_, rfl, rfl⟩
      · cases h
        exact ⟨_, rfl, rfl⟩
      · cases h
        exact ⟨_, rfl, rfl⟩
      · cases h
        exact ⟨_, rfl, rfl⟩
      · split_ifs at h
    · cases h
  | equality f =>
    change f.evaluate xs true = _ at h
    cases xs with
    | nil => cases h
    | cons x xs =>
      obtain ⟨e, he, h⟩ := Evaluated.bind_eq_ok.mp h
      split at h
      · cases h
      · next hfeasible =>
        cases h
        exact ⟨_, Evaluated.bind_eq_ok.mpr ⟨e, he, if_neg hfeasible⟩, rfl⟩
  | function f =>
    change f.evaluate xs true = _ at h
    change ∃ r', f.evaluate xs false = _ ∧ _
    unfold FunctionFactor.evaluate at h ⊢
    split at h
    · cases h
    · split at h
      · cases h
      · next hpredicted =>
        split_ifs at h with hsize hjacobian
        · split at h
          · cases h
          · cases h
            exact ⟨_, if_neg hsize, rfl⟩
        · exact absurd rfl hjacobian
    · cases h
  | custom f => exact hcustom f rfl xs r h

/-! ### Whitened factors -/

/-- The linear factor is the whitened factor at a configuration: its right-hand side is the whitened
residual with the other sign, and its blocks, as wide as the tangent spaces at the values, are the
whitened Jacobian. -/
structure IsWhitened (f : Factor α) (c : Config α) (l : GaussianFactor α) : Prop where
  keys_eq : l.keys = f.keys
  rhs_eq : ∃ e, f.whitened c = .ok e ∧ l.rhs = -e
  blocks_eq : ∃ xs e jacobian, f.values c = .ok xs ∧ f.evaluate xs true = .ok ⟨e, some jacobian⟩ ∧
    l.blocks.map Mat.cols = xs.map Value.dim ∧
    Mat.sideBySide l.height l.blocks = f.noise.sqrtInfo * jacobian

theorem whitened_eq_ok_iff {w : Vec α} :
    f.whitened c = .ok w ↔ ∃ xs r, f.values c = .ok xs ∧ f.evaluate xs false = .ok r ∧
      (r.value.size = f.dimension ∧ r.value.allFinite) ∧ f.noise.whiten r.value = w := by
  simp only [whitened, unwhitened, Evaluated.bind_eq_ok, checkResidual_eq_ok_iff, pure, Except.pure,
    Except.ok.injEq]
  constructor
  · rintro ⟨_, ⟨xs, hxs, r, hr, -, he, rfl⟩, rfl⟩
    exact ⟨xs, r, hxs, hr, he, rfl⟩
  · rintro ⟨xs, r, hxs, hr, he, rfl⟩
    exact ⟨_, ⟨xs, hxs, r, hr, (), he, rfl⟩, rfl⟩

/-- **A linearized factor is the whitened factor.** -/
theorem isWhitened_of_linearize (hcustom : ∀ g, f = .custom g → g.SameResidual)
    (h : f.linearize c = .ok l) : f.IsWhitened c l := by
  obtain ⟨xs, e, jacobian, hxs, hr, he, ⟨-, hcols⟩, -, hl⟩ := linearize_eq_ok_iff.mp h
  obtain ⟨hlen, hterms, hrhs⟩ := GaussianFactor.ofBlocks?_eq_ok_iff.mp hl
  have hvalues : f.values c = .ok xs := lookUp_eq_ok_iff.mpr hxs
  have hwidth : (f.noise.whitenJacobian jacobian).cols = (xs.map Value.dim).foldr (· + ·) 0 := hcols
  have hblocks : l.blocks = splitColumns (f.noise.whitenJacobian jacobian)
      0 (xs.map Value.dim) := by
    rw [GaussianFactor.blocks, hterms, List.map_snd_zip hlen.ge]
  have hheight : l.height = (f.noise.whitenJacobian jacobian).height := by
    rw [GaussianFactor.height, hrhs]
    exact (List.length_map _).trans ((List.length_map _).trans (List.length_map _).symm)
  obtain ⟨r, hr', hvalue⟩ := exists_evaluate_false hcustom hr
  refine ⟨(exists_of_linearize h).1, ⟨f.noise.whiten e, ?_, hrhs⟩, xs, e, jacobian,
    hvalues, hr, ?_, ?_⟩
  · exact whitened_eq_ok_iff.mpr ⟨xs, r, hvalues, hr', hvalue ▸ he, congrArg _ hvalue⟩
  · rw [hblocks, cols_splitColumns (hwidth.trans (Nat.zero_add _).symm)]
  · rw [hblocks, hheight, Mat.sideBySide_splitColumns hwidth]
    rfl

/-! ### Constraints -/

theorem exists_of_evaluate_equality {g : EqualityFactor α} {xs : List (Value α)}
    {wantJacobian : Bool} {r : Residual α} (hxs : (equality g).values c = .ok xs)
    (hr : g.evaluate xs wantJacobian = .ok r) :
    ∃ x, c.get? g.key = some x ∧ g.feasible.deviation g.key x = .ok r.value ∧
      (g.allowError = false → g.isFeasible r.value = true) := by
  obtain ⟨x, rest, hx, -, rfl⟩ := List.forall₂_cons_left_iff.mp (lookUp_eq_ok_iff.mp hxs)
  obtain ⟨e, he, hr⟩ := Evaluated.bind_eq_ok.mp hr
  split at hr
  · cases hr
  · next hfeasible =>
    cases hr
    exact ⟨x, hx, he, fun hhard => by simpa [hhard] using hfeasible⟩

/-- **A hard constraint is linearized only where it holds.** -/
theorem holdsAt_of_linearize {g : EqualityFactor α} (hhard : g.allowError = false)
    (h : (equality g).linearize c = .ok l) : g.HoldsAt c := by
  obtain ⟨xs, e, jacobian, hxs, hr, -⟩ := linearize_eq_ok_iff.mp h
  obtain ⟨x, hx, he, hfeasible⟩ := exists_of_evaluate_equality (lookUp_eq_ok_iff.mpr hxs) hr
  exact ⟨x, e, hx, he, hfeasible hhard⟩

theorem error_of_holdsAt {g : EqualityFactor α} (hhard : g.allowError = false) (h : g.HoldsAt c) :
    (equality g).error c = .ok 0 := by
  obtain ⟨x, e, hx, he, hfeasible⟩ := h
  simp [error, hx, EqualityFactor.error, he, hhard, hfeasible, bind, Except.bind, pure, Except.pure]

theorem error_of_whitened {w : Vec α} (hsoft : ∀ g, f = .equality g → g.allowError = true)
    (hw : f.whitened c = .ok w) : f.error c = .ok (0.5 * w.normSq) := by
  by_cases hequality : ∃ g, f = .equality g
  · obtain ⟨g, rfl⟩ := hequality
    obtain ⟨xs, r, hxs, hr, -, rfl⟩ := whitened_eq_ok_iff.mp hw
    obtain ⟨x, hx, he, -⟩ := exists_of_evaluate_equality hxs hr
    simp only [error, hx, EqualityFactor.error, he, hsoft g rfl]
    rfl
  · rw [error_eq_whitened (not_exists.mp hequality), hw]
    rfl

theorem exists_error_of_linearize (hcustom : ∀ g, f = .custom g → g.SameResidual)
    (h : f.linearize c = .ok l) : ∃ e, f.error c = .ok e := by
  by_cases hhard : ∃ g, f = .equality g ∧ g.allowError = false
  · obtain ⟨g, rfl, hhard⟩ := hhard
    exact ⟨0, error_of_holdsAt hhard (holdsAt_of_linearize hhard h)⟩
  · obtain ⟨e, he, -⟩ := (isWhitened_of_linearize hcustom h).rhs_eq
    refine ⟨_, error_of_whitened (fun g hg => ?_) he⟩
    by_contra hallow
    exact hhard ⟨g, hg, by simpa using hallow⟩

/-- **The error of a linear factor at the update zero** is the error it is linearized at. -/
theorem IsWhitened.error_eq {f : Factor ℝ} {c : Config ℝ} {l : GaussianFactor ℝ}
    (h : f.IsWhitened c l) (hsoft : ∀ g, f = .equality g → g.allowError = true) {δ : BlockVector ℝ}
    (hδ : ∀ k i, δ.coord k i = 0) : f.error c = .ok (l.error δ) := by
  obtain ⟨e, he, hrhs⟩ := h.rhs_eq
  have hresidual : l.residual δ = e := by
    refine Vec.ext_get ?_ fun i _ => ?_
    · rw [l.size_residual, GaussianFactor.height, hrhs, Vec.size_neg]
    · have hcoord : δ.coord = (0 : ℝ) • δ.coord := by
        funext k j
        simp [hδ]
      have hvalue : l.value δ.coord i = 0 := by
        rw [GaussianFactor.value, hcoord, rowValue_smul, zero_mul]
      rw [l.get_residual, hvalue, hrhs, Vec.get_neg, sub_neg_eq_add, zero_add]
  rw [error_of_whitened hsoft he, GaussianFactor.error, hresidual]

end Factor

namespace FactorGraph

/-- **A linearization** has one factor for each factor, with its keys. -/
theorem keys_of_linearize {g : FactorGraph α} {c : Config α} {linear : GaussianGraph α}
    (h : (g.linearize c).outcome = .ok linear) :
    List.Forall₂ (fun f l => l.keys = f.keys) g.factors linear.factors :=
  (linearize_eq_ok_iff.mp h).2.imp fun _ _ hl => (Factor.exists_of_linearize hl).1

variable {g : FactorGraph ℝ} {c : Config ℝ} {linear : GaussianGraph ℝ}

theorem fits_of_linearize (h : (g.linearize c).outcome = .ok linear) {δ : BlockVector ℝ}
    (hδ : c.Fits δ) : linear.fits δ = true :=
  List.all_eq_true.mpr fun _ hl => (exists_of_mem_linearize h hl).elim fun _ hf =>
    Factor.fits_of_linearize hf.2 hδ

/-- **A linearization starts at the error.** A problem that is linearized has an error, and each of
its linear factors is the whitened factor. Without hard constraints the error is that of the
linearization at the update zero. The hard constraints hold and add nothing to it. -/
theorem error_of_linearize (hcustom : ∀ f, .custom f ∈ g.factors → f.SameResidual)
    (h : (g.linearize c).outcome = .ok linear) :
    (∃ e, (g.error c).outcome = .ok e ∧
      ((∀ f, .equality f ∈ g.factors → f.allowError = true) →
        ∀ δ, c.Fits δ → (∀ k i, δ.coord k i = 0) → linear.error? δ = some e)) ∧
      List.Forall₂ (fun f l => f.IsWhitened c l) g.factors linear.factors ∧
      ∀ f, .equality f ∈ g.factors → f.allowError = false → f.HoldsAt c ∧
        (Factor.equality f).error c = .ok 0 := by
  obtain ⟨hv, hlinear⟩ := linearize_eq_ok_iff.mp h
  have hsame : ∀ f ∈ g.factors, ∀ q, f = .custom q → q.SameResidual :=
    fun f hf q hq => hcustom q (hq ▸ hf)
  have hwhitened : List.Forall₂ (fun f l => f.IsWhitened c l) g.factors linear.factors :=
    (List.forall₂_and_left _ _ |>.mpr ⟨hsame, hlinear⟩).imp fun f l hfl =>
      Factor.isWhitened_of_linearize hfl.1 hfl.2
  have hexists : ∀ f ∈ g.factors, ∃ l, f.linearize c = .ok l := exists_forall₂_iff.mp ⟨_, hlinear⟩
  refine ⟨?_, hwhitened, fun f hf hhard => ?_⟩
  · obtain ⟨errors, herrors⟩ := exists_forall₂_iff.mpr fun f hf =>
      (hexists f hf).elim fun l hl => Factor.exists_error_of_linearize (hsame f hf) hl
    have herror := error_eq_ok_iff.mpr ⟨hv, errors, herrors, rfl⟩
    refine ⟨_, herror, fun hsoft δ hfits hδ => ?_⟩
    have hzero : List.Forall₂ (fun f b => f.error c = .ok b) g.factors
        (linear.factors.map (·.error δ)) := by
      rw [List.forall₂_map_right_iff]
      have hsoft' : ∀ f ∈ g.factors, ∀ q, f = .equality q → q.allowError = true :=
        fun f hf q hq => hsoft q (hq ▸ hf)
      exact (List.forall₂_and_left _ _ |>.mpr ⟨hsoft', hwhitened⟩).imp fun f l hfl =>
        hfl.2.error_eq hfl.1 hδ
    rw [GaussianGraph.error?, if_pos (fits_of_linearize h hfits)]
    exact congrArg some
      (Except.ok.inj ((error_eq_ok_iff.mpr ⟨hv, _, hzero, rfl⟩).symm.trans herror))
  · obtain ⟨l, hl⟩ := hexists _ hf
    have hholds := Factor.holdsAt_of_linearize hhard hl
    exact ⟨hholds, Factor.error_of_holdsAt hhard hholds⟩

end FactorGraph

/-! ### A tethered variable

A constraint keeps `x` at one, where it is, and a factor with an evaluation of its own measures
`y - x`. -/

namespace Tether

def x : Key := ⟨'x', 1⟩

def y : Key := ⟨'x', 2⟩

/-- Keeps `x` at one, if need be at a cost. -/
noncomputable def anchor (soft : Bool) : EqualityFactor ℝ where
  key := x
  feasible := .rn ⟨[1]⟩
  noise := ⟨.unit, Mat.identity 1⟩
  tolerance := 0
  allowError := soft

/-- Measures `y - x` as one. -/
noncomputable def offset : CustomFactor ℝ where
  kind := .function
  keys := [x, y]
  noise := ⟨.unit, Mat.identity 1⟩
  measured := .rn ⟨[1]⟩
  evaluate
    | [.rn x, .rn y], wantJacobian =>
      .ok ⟨y - x - ⟨[1]⟩, if wantJacobian then
        some (Mat.ofFn 1 2 fun _ j => if j = 0 then -1 else 1) else none⟩
    | values, _ => .error (.cause (.dimension 2 values.length))

noncomputable def graph (soft : Bool) : FactorGraph ℝ := ⟨[.equality (anchor soft), .custom offset]⟩

noncomputable def config : Config ℝ := (KeyMap.empty.insert x (.rn ⟨[1]⟩)).insert y (.rn ⟨[0]⟩)

theorem sameResidual {soft : Bool} : ∀ f, .custom f ∈ (graph soft).factors → f.SameResidual := by
  intro f hf xs r hr
  obtain rfl : f = offset := by simpa [graph] using hf
  simp only [offset] at hr ⊢
  split at hr
  · cases hr
    exact ⟨_, rfl, rfl⟩
  · cases hr

theorem isFeasible (soft : Bool) : (anchor soft).isFeasible (-⟨[1]⟩ + ⟨[1]⟩) = true := by
  have hzero : (-⟨[1]⟩ + ⟨[1]⟩ : Vec ℝ) = ⟨[0]⟩ :=
    congrArg (fun a => Vec.mk [a]) (neg_add_cancel (1 : ℝ))
  simp [hzero, EqualityFactor.isFeasible, anchor, Vec.amax, Vec.largest]

theorem exists_linearize (soft : Bool) :
    ∃ linear, ((graph soft).linearize config).outcome = .ok linear := by
  obtain ⟨l, hl⟩ : ∃ l, (Factor.equality (anchor soft)).linearize config = .ok l := by
    have hevaluate : (anchor soft).evaluate [.rn ⟨[1]⟩] true =
        .ok ⟨-⟨[1]⟩ + ⟨[1]⟩, some (Mat.identity 1)⟩ := by
      refine Evaluated.bind_eq_ok.mpr ⟨-⟨[1]⟩ + ⟨[1]⟩, rfl, if_neg ?_⟩
      simp [isFeasible]
    exact ⟨_, Factor.linearize_eq_ok_iff.mpr ⟨[.rn ⟨[1]⟩], _, _, .cons rfl .nil, hevaluate,
      ⟨rfl, rfl⟩, ⟨rfl, rfl⟩, rfl, rfl⟩⟩
  obtain ⟨l', hl'⟩ : ∃ l, (Factor.custom offset).linearize config = .ok l := ⟨_, rfl⟩
  exact ⟨⟨[l, l']⟩, FactorGraph.linearize_eq_ok_iff.mpr ⟨rfl, .cons hl (.cons hl' .nil)⟩⟩

/-- With the hard constraint there is an error, to which the constraint adds nothing; with the soft
one it is the error of the linearization at the update zero. -/
theorem error_of_linearize_tethered :
    (∃ e, ((graph false).error config).outcome = .ok e ∧
      (Factor.equality (anchor false)).error config = .ok 0) ∧
      ∃ linear e, ((graph true).linearize config).outcome = .ok linear ∧
      ((graph true).error config).outcome = .ok e ∧
        linear.error? KeyMap.empty = some e := by
  obtain ⟨hard, hhard⟩ := exists_linearize false
  obtain ⟨linear, hlinear⟩ := exists_linearize true
  obtain ⟨⟨e, he, -⟩, -, hconstraints⟩ := FactorGraph.error_of_linearize sameResidual hhard
  obtain ⟨⟨e', he', hzero⟩, -, -⟩ := FactorGraph.error_of_linearize sameResidual hlinear
  have hsoft : ∀ f, .equality f ∈ (graph true).factors → f.allowError = true := by
    intro f hf
    obtain rfl : f = anchor true := by simpa [graph] using hf
    rfl
  have hfits : config.Fits KeyMap.empty := fun k v hv => absurd hv (by simp)
  exact ⟨⟨e, he, (hconstraints (anchor false) List.mem_cons_self rfl).2⟩, linear, e', hlinear, he',
    hzero hsoft _ hfits BlockVector.coord_empty⟩

end Tether

end Smoothing
