import Smoothing.Key

/-!
# Maps from keys

A finite map from keys, stored as its entries in increasing order of the keys. The order is part of
the type, so two maps with the same look-ups are equal (`KeyMap.ext`), and everything that walks
over a map meets the keys in order.
-/

namespace Smoothing

structure KeyMap (β : Type) where
  entries : List (Key × β)
  sorted : entries.Pairwise fun a b => a.1 < b.1

abbrev KeySet := KeyMap Unit

namespace KeyMap

variable {β γ : Type}

/-! ### Look-up in a list of entries -/

def find? (k : Key) : List (Key × β) → Option β
  | [] => none
  | (k', v) :: es => if k' = k then some v else find? k es

theorem find?_eq_none_of_forall_lt {k : Key} {es : List (Key × β)} (h : ∀ e ∈ es, k < e.1) :
    find? k es = none := by
  induction es with
  | nil => rfl
  | cons e es ih =>
    rw [find?, if_neg fun hk => Key.lt_irrefl k (by simpa [hk] using h e)]
    exact ih fun e' he => h e' (List.mem_cons_of_mem _ he)

theorem mem_of_find?_eq_some {k : Key} {v : β} {es : List (Key × β)} (h : find? k es = some v) :
    (k, v) ∈ es := by
  induction es with
  | nil => simp [find?] at h
  | cons e es ih =>
    obtain ⟨k', v'⟩ := e
    rw [find?] at h
    split at h
    · next hk => simp_all
    · exact List.mem_cons_of_mem _ (ih h)

theorem find?_eq_some_of_mem {k : Key} {v : β} {es : List (Key × β)}
    (hs : es.Pairwise fun a b => a.1 < b.1) (h : (k, v) ∈ es) : find? k es = some v := by
  induction es with
  | nil => simp at h
  | cons e es ih =>
    obtain ⟨k', v'⟩ := e
    rw [List.pairwise_cons] at hs
    rw [find?]
    rcases List.mem_cons.1 h with h | h
    · simp_all
    · rw [if_neg fun hk => Key.lt_irrefl k (by simpa [hk] using hs.1 _ h)]
      exact ih hs.2 h

/-! ### The operations -/

def empty : KeyMap β := ⟨[], List.Pairwise.nil⟩

instance : EmptyCollection (KeyMap β) := ⟨empty⟩
instance : Inhabited (KeyMap β) := ⟨empty⟩

def get? (m : KeyMap β) (k : Key) : Option β := find? k m.entries

def contains (m : KeyMap β) (k : Key) : Bool := (m.get? k).isSome

def size (m : KeyMap β) : Nat := m.entries.length

def isEmpty (m : KeyMap β) : Bool := m.entries.isEmpty

def keys (m : KeyMap β) : List Key := m.entries.map (·.1)

def values (m : KeyMap β) : List β := m.entries.map (·.2)

/-- The sum of the sizes of all values. -/
def total (size : β → Nat) (m : KeyMap β) : Nat := m.entries.foldr (fun e n => size e.2 + n) 0

/-- Puts an entry at its place in a sorted list, replacing the entry of the same key. -/
def insertEntry (k : Key) (v : β) : List (Key × β) → List (Key × β)
  | [] => [(k, v)]
  | e :: es =>
    if k < e.1 then (k, v) :: e :: es
    else if e.1 = k then (k, v) :: es
    else e :: insertEntry k v es

theorem lt_of_mem_insertEntry {j k : Key} {v : β} {es : List (Key × β)} (hj : j < k)
    (h : ∀ e ∈ es, j < e.1) : ∀ e ∈ insertEntry k v es, j < e.1 := by
  induction es with
  | nil => simpa [insertEntry] using hj
  | cons e es ih =>
    have he := h e List.mem_cons_self
    have hes : ∀ e ∈ es, j < e.1 := fun e' h' => h e' (List.mem_cons_of_mem _ h')
    rw [insertEntry]
    split
    · simpa [hj, he] using fun a b h' => hes (a, b) h'
    · split
      · simpa [hj] using fun a b h' => hes (a, b) h'
      · simpa [he] using fun a b h' => ih hes (a, b) h'

theorem sorted_insertEntry (k : Key) (v : β) {es : List (Key × β)}
    (h : es.Pairwise fun a b => a.1 < b.1) :
    (insertEntry k v es).Pairwise fun a b => a.1 < b.1 := by
  induction es with
  | nil => simp [insertEntry]
  | cons e es ih =>
    have ⟨he, hes⟩ := List.pairwise_cons.1 h
    rw [insertEntry]
    split
    · next hk =>
      refine List.pairwise_cons.2 ⟨fun e' h' => ?_, h⟩
      rcases List.mem_cons.1 h' with rfl | h'
      · exact hk
      · exact Key.lt_trans hk (he e' h')
    · split
      · next hk => exact List.pairwise_cons.2 ⟨fun e' h' => hk ▸ he e' h', hes⟩
      · next hk hne =>
        exact List.pairwise_cons.2
          ⟨lt_of_mem_insertEntry (Key.lt_of_not_lt hk (Ne.symm hne)) he, ih hes⟩

def insert (m : KeyMap β) (k : Key) (v : β) : KeyMap β :=
  ⟨insertEntry k v m.entries, sorted_insertEntry k v m.sorted⟩

def erase (m : KeyMap β) (k : Key) : KeyMap β :=
  ⟨m.entries.filter (·.1 ≠ k), m.sorted.filter _⟩

def map (f : Key → β → γ) (m : KeyMap β) : KeyMap γ :=
  ⟨m.entries.map fun e => (e.1, f e.1 e.2), List.pairwise_map.2 m.sorted⟩

/-- The map of a list of entries; of two entries with one key the later one counts. -/
def ofList (es : List (Key × β)) : KeyMap β :=
  es.foldl (fun m e => m.insert e.1 e.2) empty

def add (s : KeySet) (k : Key) : KeySet := s.insert k ()

def setOf (ks : List Key) : KeySet := ks.foldl add empty

/-! ### What the operations do to a look-up -/

@[simp] theorem get?_empty (k : Key) : (empty : KeyMap β).get? k = none := rfl

theorem find?_insertEntry (k j : Key) (v : β) {es : List (Key × β)}
    (h : es.Pairwise fun a b => a.1 < b.1) :
    find? j (insertEntry k v es) = if j = k then some v else find? j es := by
  induction es with
  | nil => simp [insertEntry, find?, eq_comm]
  | cons e es ih =>
    obtain ⟨k', v'⟩ := e
    have ⟨he, hes⟩ := List.pairwise_cons.1 h
    simp only [insertEntry]
    split
    · simp [find?, eq_comm]
    · split
      · next hk =>
        subst hk
        by_cases hj : j = k' <;> simp [find?, hj, eq_comm]
      · next hk hne =>
        by_cases hj : k' = j
        · subst hj
          simp [find?, hne]
        · simp [find?, hj, ih hes]

theorem get?_insert (m : KeyMap β) (k j : Key) (v : β) :
    (m.insert k v).get? j = if j = k then some v else m.get? j :=
  find?_insertEntry k j v m.sorted

@[simp] theorem get?_insert_self (m : KeyMap β) (k : Key) (v : β) :
    (m.insert k v).get? k = some v := by simp [get?_insert]

theorem get?_insert_of_ne (m : KeyMap β) {k j : Key} (v : β) (h : j ≠ k) :
    (m.insert k v).get? j = m.get? j := by simp [get?_insert, h]

theorem get?_map (f : Key → β → γ) (m : KeyMap β) (k : Key) :
    (m.map f).get? k = (m.get? k).map (f k) := by
  obtain ⟨es, hs⟩ := m
  simp only [get?, map]
  clear hs
  induction es with
  | nil => rfl
  | cons e es ih =>
    simp only [List.map_cons, find?]
    split
    · next h => simp [h]
    · exact ih

theorem get?_erase (m : KeyMap β) (k j : Key) :
    (m.erase k).get? j = if j = k then none else m.get? j := by
  obtain ⟨es, hs⟩ := m
  simp only [get?, erase]
  clear hs
  induction es with
  | nil => simp [find?]
  | cons e es ih =>
    rw [List.filter_cons]
    split
    · next h =>
      simp only [find?, ih]
      by_cases he : e.1 = j
      · have : j ≠ k := fun hj => by simp_all
        simp [he, this]
      · simp [he]
    · next h =>
      have h : e.1 = k := by simpa using h
      rw [ih]
      by_cases hj : j = k
      · simp [hj]
      · simp [hj, find?, h, Ne.symm hj]

theorem get?_eq_some_iff {m : KeyMap β} {k : Key} {v : β} :
    m.get? k = some v ↔ (k, v) ∈ m.entries :=
  ⟨mem_of_find?_eq_some, find?_eq_some_of_mem m.sorted⟩

theorem mem_keys {m : KeyMap β} {k : Key} : k ∈ m.keys ↔ (m.get? k).isSome := by
  simp only [keys, List.mem_map, Option.isSome_iff_exists, get?_eq_some_iff]
  constructor
  · rintro ⟨⟨k', v⟩, h, rfl⟩
    exact ⟨v, h⟩
  · rintro ⟨v, h⟩
    exact ⟨_, h, rfl⟩

theorem sorted_keys (m : KeyMap β) : m.keys.Pairwise (· < ·) :=
  List.pairwise_map.2 m.sorted

theorem keys_map (f : Key → β → γ) (m : KeyMap β) : (m.map f).keys = m.keys := by
  simp [keys, map]

/-! ### Extensionality -/

private theorem entries_ext {es fs : List (Key × β)} (he : es.Pairwise fun a b => a.1 < b.1)
    (hf : fs.Pairwise fun a b => a.1 < b.1) (h : ∀ k v, (k, v) ∈ es ↔ (k, v) ∈ fs) : es = fs := by
  induction es generalizing fs with
  | nil =>
    cases fs with
    | nil => rfl
    | cons f fs => exact absurd ((h f.1 f.2).2 List.mem_cons_self) (by simp)
  | cons e es ih =>
    cases fs with
    | nil => exact absurd ((h e.1 e.2).1 List.mem_cons_self) (by simp)
    | cons f fs =>
      have ⟨he1, he2⟩ := List.pairwise_cons.1 he
      have ⟨hf1, hf2⟩ := List.pairwise_cons.1 hf
      have hef : e = f := by
        rcases List.mem_cons.1 ((h e.1 e.2).1 List.mem_cons_self) with g | g
        · exact g
        · rcases List.mem_cons.1 ((h f.1 f.2).2 List.mem_cons_self) with g' | g'
          · exact g'.symm
          · exact absurd (Key.lt_trans (hf1 _ g) (he1 _ g')) (Key.lt_irrefl _)
      subst hef
      refine congrArg _ (ih he2 hf2 fun k v => ⟨fun g => ?_, fun g => ?_⟩)
      · rcases List.mem_cons.1 ((h k v).1 (List.mem_cons_of_mem _ g)) with g' | g'
        · exact absurd (g' ▸ he1 _ g) (Key.lt_irrefl _)
        · exact g'
      · rcases List.mem_cons.1 ((h k v).2 (List.mem_cons_of_mem _ g)) with g' | g'
        · exact absurd (g' ▸ hf1 _ g) (Key.lt_irrefl _)
        · exact g'

/-- **Two maps with the same look-ups are equal.** -/
theorem ext {m n : KeyMap β} (h : ∀ k, m.get? k = n.get? k) : m = n := by
  obtain ⟨es, hs⟩ := m
  obtain ⟨fs, hf⟩ := n
  congr
  refine entries_ext hs hf fun k v => ?_
  have := h k
  rw [← get?_eq_some_iff (m := ⟨es, hs⟩), ← get?_eq_some_iff (m := ⟨fs, hf⟩), this]

end KeyMap

end Smoothing
