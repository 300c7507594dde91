/-!
# Keys

A key names a variable: a letter and a number, such as `x1` or `l7`. Keys are ordered by letter,
then by number.
-/

namespace Smoothing

structure Key where
  tag : Char
  index : UInt64
deriving DecidableEq, Repr, Inhabited

namespace Key

def chars (k : Key) : List Char :=
  k.tag :: Nat.toDigits 10 k.index.toNat

def text (k : Key) : String := String.ofList k.chars

instance : ToString Key := ⟨text⟩

def listText (ks : List Key) : String :=
  ", ".intercalate (ks.map text)

/-! ### The order -/

instance : LT Key := ⟨fun a b => a.tag < b.tag ∨ a.tag = b.tag ∧ a.index < b.index⟩

instance (a b : Key) : Decidable (a < b) :=
  inferInstanceAs (Decidable (a.tag < b.tag ∨ a.tag = b.tag ∧ a.index < b.index))

theorem lt_def {a b : Key} : a < b ↔ a.tag < b.tag ∨ a.tag = b.tag ∧ a.index < b.index := Iff.rfl

theorem lt_irrefl (a : Key) : ¬ a < a := by
  rw [lt_def]
  rintro (h | ⟨-, h⟩)
  · exact Char.lt_irrefl _ h
  · exact UInt64.lt_irrefl _ h

theorem lt_trans {a b c : Key} (hab : a < b) (hbc : b < c) : a < c := by
  rw [lt_def] at *
  rcases hab with h | ⟨h, h'⟩ <;> rcases hbc with g | ⟨g, g'⟩
  · exact Or.inl (Char.lt_trans h g)
  · exact Or.inl (g ▸ h)
  · exact Or.inl (h ▸ g)
  · exact Or.inr ⟨h.trans g, UInt64.lt_trans h' g'⟩

theorem lt_asymm {a b : Key} (h : a < b) : ¬ b < a := fun g => lt_irrefl a (lt_trans h g)

theorem ne_of_lt {a b : Key} (h : a < b) : a ≠ b := fun e => lt_irrefl b (e ▸ h)

theorem lt_trichotomy (a b : Key) : a < b ∨ a = b ∨ b < a := by
  obtain ⟨s, i⟩ := a
  obtain ⟨t, j⟩ := b
  simp only [lt_def, mk.injEq]
  by_cases hst : s = t
  · subst hst
    by_cases hij : i = j
    · simp [hij]
    · rcases UInt64.lt_or_lt_of_ne hij with h | h <;> simp [h]
  · by_cases h : s < t
    · simp [h]
    · have : t < s := Char.not_le.1 fun g => hst (Char.le_antisymm g (Char.not_lt.1 h))
      simp [this]

theorem lt_of_not_lt {a b : Key} (h : ¬ a < b) (hne : a ≠ b) : b < a := by
  rcases lt_trichotomy a b with g | g | g
  · exact absurd g h
  · exact absurd g hne
  · exact g

end Key

end Smoothing
