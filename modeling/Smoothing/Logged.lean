/-!
# Computations that report events

A computation of the solver reports events while it runs and then answers, or stops with a cause.
Events are data, so what is reported can be reasoned about like the answer. Apart from a cause a
computation can also stop because sizes do not agree that its caller promised to agree.
-/

namespace Smoothing

inductive Stop (ε : Type) where
  /-- A cause that is reported to the caller. -/
  | cause (e : ε)
  /-- Sizes the caller promised to agree do not agree. -/
  | sizes
deriving Repr

def Stop.map {ε δ : Type} (f : ε → δ) : Stop ε → Stop δ
  | .cause e => .cause (f e)
  | .sizes => .sizes

/-- A computation that reports events of type `ν`, fails with causes of type `ε` and answers with a
value of type `α`. -/
structure Logged (ν ε α : Type) where
  events : List ν
  outcome : Except (Stop ε) α

namespace Logged

variable {ν ε δ α β : Type}

protected def pure (a : α) : Logged ν ε α := ⟨[], .ok a⟩

/-- Goes on with the answer of a computation; the events of both are reported. -/
protected def bind (x : Logged ν ε α) (f : α → Logged ν ε β) : Logged ν ε β :=
  match x.outcome with
  | .ok a =>
    let y := f a
    ⟨x.events ++ y.events, y.outcome⟩
  | .error s => ⟨x.events, .error s⟩

instance : Monad (Logged ν ε) where
  pure := Logged.pure
  bind := Logged.bind

def report (e : ν) : Logged ν ε Unit := ⟨[e], .ok ()⟩

def fail (e : ε) : Logged ν ε α := ⟨[], .error (.cause e)⟩

def sizes : Logged ν ε α := ⟨[], .error .sizes⟩

/-- Answers with the value of a pure computation, or stops with its cause. -/
def lift : Except ε α → Logged ν ε α
  | .ok a => .pure a
  | .error e => fail e

def ofOutcome (o : Except (Stop ε) α) : Logged ν ε α := ⟨[], o⟩

/-- Answers with a value that is there if sizes agree. -/
def fromOption : Option α → Logged ν ε α
  | some a => .pure a
  | none => sizes

def mapCause (f : ε → δ) (x : Logged ν ε α) : Logged ν δ α :=
  ⟨x.events, match x.outcome with
    | .ok a => .ok a
    | .error s => .error (s.map f)⟩

def mapEvents {μ : Type} (f : ν → μ) (x : Logged ν ε α) : Logged μ ε α :=
  ⟨x.events.map f, x.outcome⟩

/-- What a computation leads to, as an answer of its own. -/
def attempt (x : Logged ν ε α) : Logged ν δ (Except (Stop ε) α) := ⟨x.events, .ok x.outcome⟩

def reportIf (c : Bool) (e : ν) : Logged ν ε Unit := if c then report e else .pure ()

/-! ### Laws -/

@[simp] theorem events_pure (a : α) : (pure a : Logged ν ε α).events = [] := rfl

@[simp] theorem outcome_pure (a : α) : (pure a : Logged ν ε α).outcome = .ok a := rfl

theorem outcome_bind_ok {x : Logged ν ε α} {a : α} (f : α → Logged ν ε β)
    (h : x.outcome = .ok a) : (x >>= f).outcome = (f a).outcome := by
  simp [bind, Logged.bind, h]

theorem outcome_bind_error {x : Logged ν ε α} {s : Stop ε} (f : α → Logged ν ε β)
    (h : x.outcome = .error s) : (x >>= f).outcome = .error s := by
  simp [bind, Logged.bind, h]

/-- **A computation of two steps answers if and only if both do.** -/
theorem outcome_bind_eq_ok {x : Logged ν ε α} {f : α → Logged ν ε β} {b : β} :
    (x >>= f).outcome = .ok b ↔ ∃ a, x.outcome = .ok a ∧ (f a).outcome = .ok b := by
  constructor
  · intro h
    rcases hx : x.outcome with s | a
    · rw [outcome_bind_error f hx] at h
      cases h
    · rw [outcome_bind_ok f hx] at h
      exact ⟨a, rfl, h⟩
  · rintro ⟨a, ha, hb⟩
    rw [outcome_bind_ok f ha, hb]

theorem events_bind_ok {x : Logged ν ε α} {a : α} (f : α → Logged ν ε β)
    (h : x.outcome = .ok a) : (x >>= f).events = x.events ++ (f a).events := by
  simp [bind, Logged.bind, h]

theorem events_bind_error {x : Logged ν ε α} {s : Stop ε} (f : α → Logged ν ε β)
    (h : x.outcome = .error s) : (x >>= f).events = x.events := by
  simp [bind, Logged.bind, h]

theorem outcome_bind_eq_error {x : Logged ν ε α} {f : α → Logged ν ε β} {s : Stop ε} :
    (x >>= f).outcome = .error s ↔
      x.outcome = .error s ∨ ∃ a, x.outcome = .ok a ∧ (f a).outcome = .error s := by
  rcases hx : x.outcome with t | a
  · simp [outcome_bind_error f hx]
  · simp [outcome_bind_ok f hx]

theorem exists_of_isOk {x : Logged ν ε α} (h : x.outcome.isOk = true) : ∃ a, x.outcome = .ok a := by
  cases hx : x.outcome with
  | error s => simp [hx, Except.isOk, Except.toBool] at h
  | ok a => exact ⟨a, rfl⟩

theorem outcome_map (f : α → β) (x : Logged ν ε α) : (f <$> x).outcome = x.outcome.map f := by
  rcases hx : x.outcome with s | a
  · exact outcome_bind_error _ hx
  · exact outcome_bind_ok _ hx

theorem outcome_map_eq_ok {f : α → β} {x : Logged ν ε α} {b : β} :
    (f <$> x).outcome = .ok b ↔ ∃ a, x.outcome = .ok a ∧ f a = b := by
  rw [outcome_map]
  cases x.outcome <;> simp [Except.map]

@[simp] theorem outcome_map_eq_error {f : α → β} {x : Logged ν ε α} {s : Stop ε} :
    (f <$> x).outcome = .error s ↔ x.outcome = .error s := by
  rw [outcome_map]
  cases x.outcome <;> simp [Except.map]

@[simp] theorem outcome_report (e : ν) : (report e : Logged ν ε Unit).outcome = .ok () := rfl

@[simp] theorem events_report (e : ν) : (report e : Logged ν ε Unit).events = [e] := rfl

@[simp] theorem outcome_reportIf (c : Bool) (e : ν) :
    (reportIf c e : Logged ν ε Unit).outcome = .ok () := by
  cases c <;> rfl

@[simp] theorem outcome_report_bind (e : ν) (f : Unit → Logged ν ε β) :
    (report e >>= f).outcome = (f ()).outcome :=
  outcome_bind_ok f (outcome_report e)

@[simp] theorem outcome_reportIf_bind (c : Bool) (e : ν) (f : Unit → Logged ν ε β) :
    (reportIf c e >>= f).outcome = (f ()).outcome :=
  outcome_bind_ok f (outcome_reportIf c e)

@[simp] theorem outcome_reportIf_map (c : Bool) (e : ν) (f : Unit → β) :
    (f <$> (reportIf c e : Logged ν ε Unit)).outcome = .ok (f ()) := by
  rw [outcome_map, outcome_reportIf]
  rfl

theorem events_reportIf (c : Bool) (e : ν) :
    (reportIf c e : Logged ν ε Unit).events = if c then [e] else [] := by
  cases c <;> rfl

theorem outcome_fromOption_eq_ok {o : Option α} {a : α} :
    (fromOption o : Logged ν ε α).outcome = .ok a ↔ o = some a := by
  cases o with
  | none => simp [fromOption, sizes]
  | some b => simp [fromOption, Logged.pure]

theorem outcome_lift_eq_ok {x : Except ε α} {a : α} :
    (lift x : Logged ν ε α).outcome = .ok a ↔ x = .ok a := by
  cases x with
  | error e => simp [lift, fail]
  | ok b => simp [lift, Logged.pure]

@[simp] theorem outcome_fail (e : ε) : (fail e : Logged ν ε α).outcome = .error (.cause e) := rfl

theorem outcome_lift_eq_error {x : Except ε α} {s : Stop ε} :
    (lift x : Logged ν ε α).outcome = .error s ↔ ∃ e, x = .error e ∧ s = .cause e := by
  cases x with
  | error e => simp [lift, eq_comm]
  | ok b => simp [lift, Logged.pure]

theorem outcome_mapCause_eq_ok {f : ε → δ} {x : Logged ν ε α} {a : α} :
    (x.mapCause f).outcome = .ok a ↔ x.outcome = .ok a := by
  unfold mapCause
  cases x.outcome <;> simp

theorem outcome_mapCause_eq_error {f : ε → δ} {x : Logged ν ε α} {s : Stop δ} :
    (x.mapCause f).outcome = .error s ↔ ∃ t, x.outcome = .error t ∧ t.map f = s := by
  unfold mapCause
  cases x.outcome <;> simp

@[simp] theorem outcome_attempt_bind (x : Logged ν ε α) (f : Except (Stop ε) α → Logged ν δ β) :
    (x.attempt >>= f).outcome = (f x.outcome).outcome :=
  outcome_bind_ok f rfl

@[simp] theorem outcome_fail_ne_ok {e : ε} {a : α} :
    ¬ (fail e : Logged ν ε α).outcome = .ok a := by
  simp [fail]

@[simp] theorem outcome_sizes_ne_ok {a : α} : ¬ (sizes : Logged ν ε α).outcome = .ok a := by
  simp [sizes]

instance : LawfulMonad (Logged ν ε) :=
  LawfulMonad.mk' _
    (fun x => by rcases x with ⟨es, _ | _⟩ <;> simp [Functor.map, Logged.bind, Logged.pure])
    (fun a f => by simp [bind, pure, Logged.bind, Logged.pure])
    (fun x f g => by
      rcases x with ⟨es, s | a⟩
      · rfl
      · simp only [bind, Logged.bind]
        rcases (f a).outcome with s | b <;> simp)

theorem fromOption_some (a : α) : (fromOption (some a) : Logged ν ε α) = pure a := rfl

theorem bind_congr_ok {x : Logged ν ε α} {f g : α → Logged ν ε β}
    (h : ∀ a, x.outcome = .ok a → f a = g a) : x >>= f = x >>= g := by
  rcases x with ⟨es, s | a⟩
  · rfl
  · simp [bind, Logged.bind, h a rfl]

end Logged

end Smoothing
