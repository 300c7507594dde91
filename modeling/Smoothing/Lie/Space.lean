import Smoothing.Mat

/-!
# Vectors and matrices of space

Vectors with three coordinates and the three by three matrices that act on them.
-/

namespace Smoothing

structure Vec3 (α : Type) where
  x : α
  y : α
  z : α
deriving Repr, BEq

structure Mat3 (α : Type) where
  r0 : Vec3 α
  r1 : Vec3 α
  r2 : Vec3 α
deriving Repr, BEq

namespace Vec3

variable {α : Type}

def toList (v : Vec3 α) : List α := [v.x, v.y, v.z]

@[simp] theorem length_toList (v : Vec3 α) : v.toList.length = 3 := rfl

variable [Scalar α]

def zero : Vec3 α := ⟨0, 0, 0⟩

def map (f : α → α) (v : Vec3 α) : Vec3 α := ⟨f v.x, f v.y, f v.z⟩

instance : Add (Vec3 α) := ⟨fun u v => ⟨u.x + v.x, u.y + v.y, u.z + v.z⟩⟩
instance : Sub (Vec3 α) := ⟨fun u v => ⟨u.x - v.x, u.y - v.y, u.z - v.z⟩⟩
instance : Neg (Vec3 α) := ⟨map (- ·)⟩

def scale (v : Vec3 α) (c : α) : Vec3 α := v.map (· * c)

def dot (u v : Vec3 α) : α := u.x * v.x + u.y * v.y + u.z * v.z

def normSq (v : Vec3 α) : α := v.dot v

def norm (v : Vec3 α) : α := Scalar.sqrt v.normSq

def cross (u v : Vec3 α) : Vec3 α :=
  ⟨u.y * v.z - u.z * v.y, u.z * v.x - u.x * v.z, u.x * v.y - u.y * v.x⟩

def allFinite (v : Vec3 α) : Bool := v.toList.all Scalar.isFinite

def hat (v : Vec3 α) : Mat3 α := ⟨⟨0, -v.z, v.y⟩, ⟨v.z, 0, -v.x⟩, ⟨-v.y, v.x, 0⟩⟩

end Vec3

namespace Mat3

variable {α : Type} [Scalar α]

def identity : Mat3 α := ⟨⟨1, 0, 0⟩, ⟨0, 1, 0⟩, ⟨0, 0, 1⟩⟩

instance : Add (Mat3 α) := ⟨fun m n => ⟨m.r0 + n.r0, m.r1 + n.r1, m.r2 + n.r2⟩⟩
instance : Sub (Mat3 α) := ⟨fun m n => ⟨m.r0 - n.r0, m.r1 - n.r1, m.r2 - n.r2⟩⟩
instance : Neg (Mat3 α) := ⟨fun m => ⟨-m.r0, -m.r1, -m.r2⟩⟩

def scale (m : Mat3 α) (c : α) : Mat3 α := ⟨m.r0.scale c, m.r1.scale c, m.r2.scale c⟩

def unscale (m : Mat3 α) (c : α) : Mat3 α :=
  ⟨m.r0.map (· / c), m.r1.map (· / c), m.r2.map (· / c)⟩

def transpose (m : Mat3 α) : Mat3 α :=
  ⟨⟨m.r0.x, m.r1.x, m.r2.x⟩, ⟨m.r0.y, m.r1.y, m.r2.y⟩, ⟨m.r0.z, m.r1.z, m.r2.z⟩⟩

def mulVec (m : Mat3 α) (v : Vec3 α) : Vec3 α := ⟨m.r0.dot v, m.r1.dot v, m.r2.dot v⟩

def mul (m n : Mat3 α) : Mat3 α :=
  let t := n.transpose
  ⟨t.mulVec m.r0, t.mulVec m.r1, t.mulVec m.r2⟩

instance : Mul (Mat3 α) := ⟨mul⟩

def toMat (m : Mat3 α) : Mat α :=
  ⟨3, [⟨m.r0.toList⟩, ⟨m.r1.toList⟩, ⟨m.r2.toList⟩], by simp⟩

/-- The six by six matrix `[a, b; 0, a]`. -/
def blockUpper (a b : Mat3 α) : Mat α where
  cols := 6
  rows := [⟨a.r0.toList ++ b.r0.toList⟩, ⟨a.r1.toList ++ b.r1.toList⟩,
    ⟨a.r2.toList ++ b.r2.toList⟩, ⟨[0, 0, 0] ++ a.r0.toList⟩, ⟨[0, 0, 0] ++ a.r1.toList⟩,
    ⟨[0, 0, 0] ++ a.r2.toList⟩]
  width := by simp

end Mat3

end Smoothing
