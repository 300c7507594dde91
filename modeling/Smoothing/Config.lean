import Smoothing.Problem.Error

/-!
# Configurations

A configuration gives every variable a value. An update in blocks takes it to another configuration,
and the difference of two configurations is such an update. Operations never change a configuration;
they give a new one.
-/

namespace Smoothing

abbrev Config (α : Type) := KeyMap (Value α)

namespace Config

variable {α : Type}

def dim (c : Config α) : Nat := c.total Value.dim

/-- The value of a variable; `use` says what it is wanted for. -/
def valueAt (c : Config α) (k : Key) (use : KeyUse) : Except (ProblemError α) (Value α) :=
  match c.get? k with
  | some v => .ok v
  | none => .error (.missingKey k use)

variable [Scalar α]

def same (c d : Config α) : Bool :=
  c.keys == d.keys && c.values == d.values

def retractOne (c : Config α) (k : Key) (δ : Vec α) : Except (ProblemError α) (Config α) := do
  let x ← c.valueAt k .retraction
  match x.retract δ with
  | .ok y => .ok (c.insert k y)
  | .error e => .error (.group e)

/-- Applies an update to every variable it names; the others keep their values. -/
def retract (c : Config α) (δ : BlockVector α) : Except (ProblemError α) (Config α) :=
  go c δ.entries
where
  go (c : Config α) : List (Key × Vec α) → Except (ProblemError α) (Config α)
    | [] => .ok c
    | (k, v) :: rest => do
      let c ← c.retractOne k v
      go c rest

def localOne (d : Config α) (k : Key) (x : Value α) : Except (ProblemError α) (Vec α) := do
  let y ← d.valueAt k .localCoords
  match x.localCoords y with
  | .ok δ => .ok δ
  | .error e => .error (.group e)

/-- The update that leads from one configuration to another, for every variable of the first. -/
def localCoords (c d : Config α) : Except (ProblemError α) (BlockVector α) :=
  go KeyMap.empty c.entries
where
  go (acc : BlockVector α) : List (Key × Value α) → Except (ProblemError α) (BlockVector α)
    | [] => .ok acc
    | (k, x) :: rest => do
      let δ ← localOne d k x
      go (acc.insert k δ) rest

/-- Whether two configurations have the same variables and values that differ by at most a
tolerance. -/
def isApprox (c d : Config α) (tolerance : α) : Bool :=
  c.size == d.size && c.entries.all fun e => match d.get? e.1 with
    | some y => e.2.isApprox y tolerance
    | none => false

end Config

end Smoothing
