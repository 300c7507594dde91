import Smoothing.Proofs.Config

/-!
# What an update of a configuration does

`Config.retract_eq_ok_iff`: an update is applied if and only if each of its blocks belongs to a
variable, has the dimension of the value there (`Config.Fits`) and only ordinary numbers; then every
variable it names has its value updated, and the others keep theirs (`Config.updated`).
`Config.localCoords_of_forall` gives the difference of two configurations variable by variable.
-/

namespace Smoothing

theorem KeyMap.get?_foldl_insert {β γ : Type} {f : Key → β → γ} {es : List (Key × β)}
    (hes : es.Pairwise fun a b => a.1 < b.1) (acc : KeyMap γ) (k : Key) :
    (es.foldl (fun acc e => acc.insert e.1 (f e.1 e.2)) acc).get? k =
      ((find? k es).map (f k)).or (acc.get? k) := by
  induction es generalizing acc with
  | nil => simp [find?]
  | cons e es ih =>
    obtain ⟨hj, hes⟩ := List.pairwise_cons.mp hes
    have hfind : find? e.1 es = none := find?_eq_none_of_forall_lt hj
    rw [List.foldl_cons, ih hes, get?_insert]
    by_cases hk : k = e.1
    · subst hk
      simp [find?, hfind]
    · simp [find?, hk, Ne.symm hk]

variable {α : Type}

/-- Each block of an update belongs to a variable and has the dimension of the value there. -/
def Config.Fits (c : Config α) (δ : BlockVector α) : Prop :=
  ∀ k v, δ.get? k = some v → ∃ x, c.get? k = some x ∧ v.size = x.dim

variable [Scalar α]

theorem Value.retract_eq_ok_iff {x y : Value α} {δ : Vec α} :
    x.retract δ = .ok y ↔ δ.size = x.dim ∧ δ.allFinite ∧ y = x.plus δ := by
  unfold Value.retract
  by_cases hs : δ.size = x.dim
  · cases hf : δ.allFinite
    · simp [hs]
    · simp [hs, eq_comm]
  · simp [hs]

namespace Config

theorem retractOne_eq_ok_iff {c d : Config α} {k : Key} {δ : Vec α} :
    c.retractOne k δ = .ok d ↔
      ∃ x, c.get? k = some x ∧ δ.size = x.dim ∧ δ.allFinite ∧ d = c.insert k (x.plus δ) := by
  unfold retractOne valueAt
  cases hx : c.get? k with
  | none => simp [bind, Except.bind]
  | some x =>
    simp only [bind, Except.bind, Option.some.injEq, exists_eq_left']
    cases hy : x.retract δ with
    | error e =>
      have hne : ¬ (δ.size = x.dim ∧ δ.allFinite) := fun ⟨hs, hf⟩ => by
        rw [Value.retract_eq_ok_iff.mpr ⟨hs, hf, rfl⟩] at hy
        cases hy
      simp only [reduceCtorEq, false_iff]
      exact fun ⟨hs, hf, _⟩ => hne ⟨hs, hf⟩
    | ok y =>
      obtain ⟨hs, hf, rfl⟩ := Value.retract_eq_ok_iff.mp hy
      simp [hs, hf, eq_comm]

/-- The configuration with the value of every variable an update names updated. -/
def updated (c : Config α) (δ : BlockVector α) : Config α :=
  c.map fun k x => (δ.get? k).elim x x.plus

theorem get?_updated (c : Config α) (δ : BlockVector α) (k : Key) :
    (c.updated δ).get? k = (c.get? k).map fun x => (δ.get? k).elim x x.plus := KeyMap.get?_map _ c k

/-- The blocks of a sorted list are applied one by one. A later block belongs to another variable,
so it finds the value the variable had at the beginning. -/
theorem retract_go_eq_ok_iff {es : List (Key × Vec α)} (hes : es.Pairwise fun a b => a.1 < b.1)
    {c d : Config α} : retract.go c es = .ok d ↔
      (∀ e ∈ es, ∃ x, c.get? e.1 = some x ∧ e.2.size = x.dim ∧ e.2.allFinite) ∧
        ∀ k, d.get? k = (c.get? k).map fun x => (KeyMap.find? k es).elim x x.plus := by
  induction es generalizing c with
  | nil =>
    simp only [retract.go, Except.ok.injEq, List.not_mem_nil, false_implies, implies_true, true_and,
      KeyMap.find?, Option.elim_none, Option.map_id']
    exact ⟨fun h k => by rw [h], fun h => (KeyMap.ext h).symm⟩
  | cons e es ih =>
    obtain ⟨j, v⟩ := e
    obtain ⟨hj, hes⟩ := List.pairwise_cons.mp hes
    have hfind : KeyMap.find? j es = none := KeyMap.find?_eq_none_of_forall_lt hj
    have hstep : retract.go c ((j, v) :: es) = .ok d ↔ ∃ c', c.retractOne j v = .ok c' ∧
        retract.go c' es = .ok d := by
      simp only [retract.go, bind, Except.bind]
      cases c.retractOne j v <;> simp
    rw [hstep]
    simp only [retractOne_eq_ok_iff, ih hes, List.forall_mem_cons]
    constructor
    · rintro ⟨_, ⟨x, hx, hs, hf, rfl⟩, hall, hget⟩
      refine ⟨⟨⟨x, hx, hs, hf⟩, fun e he => ?_⟩, fun k => ?_⟩
      · obtain ⟨y, hy, hrest⟩ := hall e he
        rw [KeyMap.get?_insert_of_ne _ _ (Key.ne_of_lt (hj e he)).symm] at hy
        exact ⟨y, hy, hrest⟩
      · rw [hget k, KeyMap.get?_insert]
        by_cases hk : k = j
        · simp [hk, hx, KeyMap.find?, hfind]
        · simp [hk, KeyMap.find?, Ne.symm hk]
    · rintro ⟨⟨⟨x, hx, hs, hf⟩, hall⟩, hget⟩
      refine ⟨_, ⟨x, hx, hs, hf, rfl⟩, fun e he => ?_, fun k => ?_⟩
      · obtain ⟨y, hy, hrest⟩ := hall e he
        exact ⟨y, by rw [KeyMap.get?_insert_of_ne _ _ (Key.ne_of_lt (hj e he)).symm, hy], hrest⟩
      · rw [hget k, KeyMap.get?_insert]
        by_cases hk : k = j
        · simp [hk, hx, KeyMap.find?, hfind]
        · simp [hk, KeyMap.find?, Ne.symm hk]

/-- **An update is applied if and only if it fits and all its coordinates are ordinary numbers.** -/
theorem retract_eq_ok_iff {c d : Config α} {δ : BlockVector α} :
    c.retract δ = .ok d ↔ c.Fits δ ∧ (∀ k v, δ.get? k = some v → v.allFinite) ∧
    d = c.updated δ := by
  unfold retract
  rw [retract_go_eq_ok_iff δ.sorted]
  constructor
  · rintro ⟨hall, hget⟩
    have hblock : ∀ k v, δ.get? k = some v → ∃ x, c.get? k = some x ∧ v.size = x.dim ∧
        v.allFinite :=
      fun k v hv => hall (k, v) (KeyMap.get?_eq_some_iff.mp hv)
    refine ⟨fun k v hv => ?_, fun k v hv => ?_,
      KeyMap.ext fun k => (hget k).trans (get?_updated c δ k).symm⟩
    · obtain ⟨x, hx, hs, -⟩ := hblock k v hv
      exact ⟨x, hx, hs⟩
    · obtain ⟨-, -, -, hf⟩ := hblock k v hv
      exact hf
  · rintro ⟨hfits, hfinite, rfl⟩
    refine ⟨fun e he => ?_, get?_updated c δ⟩
    have hv := KeyMap.get?_eq_some_iff.mpr he
    obtain ⟨x, hx, hs⟩ := hfits e.1 e.2 hv
    exact ⟨x, hx, hs, hfinite e.1 e.2 hv⟩

/-! ### Differences -/

theorem localOne_of_localCoords {d : Config α} {k : Key} {x y : Value α} {v : Vec α}
    (hy : d.get? k = some y) (h : x.localCoords y = .ok v) : localOne d k x = .ok v := by
  simp [localOne, valueAt, hy, h, bind, Except.bind]

theorem localCoords_go_of_forall {d : Config α} {f : Key → Value α → Vec α}
    {es : List (Key × Value α)} {acc : BlockVector α}
    (h : ∀ e ∈ es, localOne d e.1 e.2 = .ok (f e.1 e.2)) :
    localCoords.go d acc es = .ok (es.foldl (fun acc e => acc.insert e.1 (f e.1 e.2)) acc) := by
  induction es generalizing acc with
  | nil => rfl
  | cons e es ih =>
    rw [List.forall_mem_cons] at h
    simp only [localCoords.go, h.1, bind, Except.bind]
    exact ih h.2

theorem localCoords_of_forall {c d : Config α} {f : Key → Value α → Vec α}
    (h : ∀ k x, c.get? k = some x → localOne d k x = .ok (f k x)) :
    c.localCoords d = .ok (c.map f) := by
  unfold localCoords
  rw [localCoords_go_of_forall fun e he => h e.1 e.2 (KeyMap.get?_eq_some_iff.mpr he)]
  refine congrArg _ (KeyMap.ext fun k => ?_)
  rw [KeyMap.get?_foldl_insert c.sorted, KeyMap.get?_map, KeyMap.get?_empty, Option.or_none]
  rfl

end Config

end Smoothing
