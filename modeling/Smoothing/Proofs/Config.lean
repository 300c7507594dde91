import Smoothing.Config

/-!
# What an update of a configuration keeps

An update moves values within their groups. The shape of a configuration (`Config.shape`) says which
variables it has, and for each of them the group of its value and the dimension of the tangent
space. No update changes it (`Config.shape_retract`).
-/

namespace Smoothing

variable {α : Type}

/-- The group of a value and the dimension of its tangent space. -/
def Value.shape (x : Value α) : Manifold × Nat := (x.manifold, x.dim)

namespace Config

/-- The variables of a configuration, with the groups and dimensions of their values. -/
def shape (c : Config α) : KeyMap (Manifold × Nat) := c.map fun _ x => x.shape

theorem get?_shape (c : Config α) (k : Key) : c.shape.get? k = (c.get? k).map Value.shape :=
  KeyMap.get?_map _ c k

theorem shape_insert {c : Config α} {k : Key} {x y : Value α} (hx : c.get? k = some x)
    (h : y.shape = x.shape) : shape (c.insert k y) = c.shape := by
  refine KeyMap.ext fun j => ?_
  rw [get?_shape, get?_shape, KeyMap.get?_insert]
  by_cases hj : j = k
  · rw [if_pos hj, hj, hx, Option.map_some, Option.map_some, h]
  · rw [if_neg hj]

end Config

variable [Scalar α]

namespace Value

theorem shape_plus (x : Value α) {δ : Vec α} (h : δ.size = x.dim) : (x.plus δ).shape = x.shape := by
  cases x with
  | rn x =>
    change (Manifold.rn, (x + δ).size) = (Manifold.rn, x.size)
    rw [Vec.size_add, h]
    exact congrArg _ (Nat.min_self _)
  | so2 x => rfl
  | se2 x => rfl
  | so3 x => rfl
  | se3 x => rfl

theorem shape_retract {x y : Value α} {δ : Vec α} (h : x.retract δ = .ok y) :
    y.shape = x.shape := by
  unfold retract at h
  split at h
  · cases h
  · next hsize =>
    split at h
    · cases h
    · cases h
      exact x.shape_plus (Decidable.not_not.mp hsize)

end Value

namespace Config

theorem shape_retractOne {c d : Config α} {k : Key} {δ : Vec α} (h : c.retractOne k δ = .ok d) :
    d.shape = c.shape := by
  unfold retractOne valueAt at h
  cases hx : c.get? k with
  | none => simp [hx, bind, Except.bind] at h
  | some x =>
    simp only [hx, bind, Except.bind] at h
    cases hy : x.retract δ with
    | error e => simp [hy] at h
    | ok y =>
      simp only [hy, Except.ok.injEq] at h
      rw [← h]
      exact shape_insert hx (Value.shape_retract hy)

theorem shape_retract_go {es : List (Key × Vec α)} {c d : Config α} (h : retract.go c es = .ok d) :
    d.shape = c.shape := by
  induction es generalizing c with
  | nil =>
    cases h
    rfl
  | cons e es ih =>
    simp only [retract.go, bind, Except.bind] at h
    cases hc : c.retractOne e.1 e.2 with
    | error e => simp [hc] at h
    | ok c' =>
      simp only [hc] at h
      exact (ih h).trans (shape_retractOne hc)

/-- **An update keeps the variables, the groups of their values and the dimensions.** -/
theorem shape_retract {c d : Config α} {δ : BlockVector α} (h : c.retract δ = .ok d) :
    d.shape = c.shape :=
  shape_retract_go h

end Config

end Smoothing
