import Smoothing.Scalar

/-!
# Vectors

Vectors whose length is known only when the program runs. Operations on two vectors work coordinate
by coordinate as far as both reach; callers that need equal lengths test them.
-/

namespace Smoothing

structure Vec (α : Type) where
  coords : List α
deriving Repr, Inhabited

namespace Vec

variable {α : Type}

def size (v : Vec α) : Nat := v.coords.length

def map (f : α → α) (v : Vec α) : Vec α := ⟨v.coords.map f⟩

def zipWith (f : α → α → α) (u v : Vec α) : Vec α := ⟨List.zipWith f u.coords v.coords⟩

def slice (v : Vec α) (start len : Nat) : Vec α := ⟨(v.coords.drop start).take len⟩

def append (u v : Vec α) : Vec α := ⟨u.coords ++ v.coords⟩

instance : Append (Vec α) := ⟨append⟩

instance [BEq α] : BEq (Vec α) := ⟨fun u v => u.coords == v.coords⟩

/-! ### Lengths -/

@[simp] theorem size_mk (l : List α) : (⟨l⟩ : Vec α).size = l.length := rfl

@[simp] theorem size_map (f : α → α) (v : Vec α) : (v.map f).size = v.size := by simp [map, size]

@[simp] theorem size_zipWith (f : α → α → α) (u v : Vec α) :
    (zipWith f u v).size = min u.size v.size := by simp [zipWith, size]

@[simp] theorem size_append (u v : Vec α) : (u ++ v).size = u.size + v.size :=
  List.length_append

@[simp] theorem size_slice (v : Vec α) (start len : Nat) :
    (v.slice start len).size = min len (v.size - start) := by simp [slice, size]

/-! ### Arithmetic -/

variable [Scalar α]

def zero (n : Nat) : Vec α := ⟨List.replicate n 0⟩

/-- The coordinate at an index, zero past the end. -/
def get (v : Vec α) (i : Nat) : α := v.coords.getD i 0

/-- The vector cut or filled with zeros to a given length. -/
def fit (n : Nat) (v : Vec α) : Vec α := ⟨v.coords.take n ++ List.replicate (n - v.size) 0⟩

instance : Add (Vec α) := ⟨zipWith (· + ·)⟩
instance : Sub (Vec α) := ⟨zipWith (· - ·)⟩
instance : Neg (Vec α) := ⟨map (- ·)⟩

def scale (v : Vec α) (c : α) : Vec α := v.map (· * c)

def unscale (v : Vec α) (c : α) : Vec α := v.map (· / c)

def axpy (c : α) (x y : Vec α) : Vec α := zipWith (fun x y => c * x + y) x y

/-- The inner product, summed in strands. -/
def dot (u v : Vec α) : α :=
  Scalar.strandSum 0 0 0 0 0 0 0 0 (List.zipWith (· * ·) u.coords v.coords)

/-- The value of a row at a vector: the inner product, summed from its first term. -/
def apply (u v : Vec α) : α := Scalar.total (List.zipWith (· * ·) u.coords v.coords)

def normSq (v : Vec α) : α := v.dot v

def norm (v : Vec α) : α := Scalar.sqrt v.normSq

def allFinite (v : Vec α) : Bool := v.coords.all Scalar.isFinite

/-- The largest of a list of scalars, found from the left: an element is kept as long as it is at
least the next one. Zero for the empty list. -/
def largest : List α → α
  | [] => 0
  | a :: as => as.foldl (fun acc x => if x ≤ acc then acc else x) a

def amax (v : Vec α) : α := largest (v.coords.map Scalar.abs)

@[simp] theorem size_zero (n : Nat) : (zero n : Vec α).size = n := by simp [zero]

@[simp] theorem size_scale (v : Vec α) (c : α) : (v.scale c).size = v.size := by simp [scale]

@[simp] theorem size_unscale (v : Vec α) (c : α) : (v.unscale c).size = v.size := by simp [unscale]

@[simp] theorem size_neg (v : Vec α) : (-v).size = v.size := size_map _ v

@[simp] theorem size_add (u v : Vec α) : (u + v).size = min u.size v.size := size_zipWith _ u v

@[simp] theorem size_sub (u v : Vec α) : (u - v).size = min u.size v.size := size_zipWith _ u v

@[simp] theorem size_fit (n : Nat) (v : Vec α) : (v.fit n).size = n := by
  simp only [fit, size_mk, List.length_append, List.length_take, List.length_replicate]
  unfold size
  omega

theorem fit_of_size_eq {n : Nat} {v : Vec α} (h : v.size = n) : v.fit n = v := by
  subst h
  simp [fit, size]

end Vec

end Smoothing
