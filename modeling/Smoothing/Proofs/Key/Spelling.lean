import Mathlib
import Smoothing.Key.Parse

/-!
# Spellings of keys

A key is spelled by its letter, a plus sign or none, and decimal digits (`Key.IsSpelling`). What is
read is exactly what is spelled and fits in 64 bits (`Key.ofText?_eq_ok_iff`), a key is read back
from its text (`Key.ofText?_text`), and the text of the key that a spelling is read as is the
spelling without its plus sign and without the zeros in front that it does not need
(`IsSpelling.text_eq`). All this is `Key.reads_spellings`.
-/

namespace Smoothing

/-! ### Decimal digits -/

/-- Decimal digits without zeros in front, except for the digit of zero itself. -/
def trimZeros (digits : List Char) : List Char :=
  match digits.dropWhile (· == '0') with
  | [] => ['0']
  | d :: ds => d :: ds

theorem trimZeros_zero_cons (ds : List Char) : trimZeros ('0' :: ds) = trimZeros ds := rfl

theorem trimZeros_cons_of_ne {d : Char} (hd : d ≠ '0') (ds : List Char) :
    trimZeros (d :: ds) = d :: ds := by
  rw [trimZeros, List.dropWhile_cons_of_neg (by simpa using hd)]

theorem digitChar_of_isDigit {d : Char} (hd : d.isDigit = true) :
    d.toNat - '0'.toNat < 10 ∧ Nat.digitChar (d.toNat - '0'.toNat) = d := by
  have hbounds : 48 ≤ d.toNat ∧ d.toNat ≤ 57 := by
    simpa [Char.isDigit, UInt32.le_iff_toNat_le] using hd
  have hzero : '0'.toNat = 48 := rfl
  refine ⟨by omega, Char.toNat_inj.mp ?_⟩
  rw [Nat.toNat_digitChar_of_lt_ten (by omega)]
  omega

theorem toDigits_ofDigitChars_of_pos {ds : List Char} (hds : ∀ d ∈ ds, d.isDigit = true) {n : ℕ}
    (hn : 0 < n) : Nat.toDigits 10 (Nat.ofDigitChars 10 ds n) = Nat.toDigits 10 n ++ ds := by
  induction ds generalizing n with
  | nil => simp
  | cons d ds ih =>
    obtain ⟨hd, hds⟩ := List.forall_mem_cons.mp hds
    obtain ⟨hlt, hchar⟩ := digitChar_of_isDigit hd
    have hdigit : Nat.toDigits 10 (d.toNat - '0'.toNat) = [d] := by
      rw [Nat.toDigits_of_lt_base hlt, hchar]
    rw [Nat.ofDigitChars_cons, ih hds (by omega), ← Nat.toDigits_append_toDigits (by decide) hn hlt,
      hdigit, List.append_assoc, List.singleton_append]

/-- **The number that digits spell is written without zeros in front.** -/
theorem toDigits_ofDigitChars {ds : List Char} (hds : ∀ d ∈ ds, d.isDigit = true) :
    Nat.toDigits 10 (Nat.ofDigitChars 10 ds 0) = trimZeros ds := by
  induction ds with
  | nil => rfl
  | cons d ds ih =>
    obtain ⟨hd, hds⟩ := List.forall_mem_cons.mp hds
    obtain ⟨hlt, hchar⟩ := digitChar_of_isDigit hd
    rw [Nat.ofDigitChars_cons, Nat.mul_zero, Nat.zero_add]
    by_cases hzero : d = '0'
    · rw [hzero, trimZeros_zero_cons, ← ih hds]
      rfl
    · have hpos : 0 < d.toNat - '0'.toNat := by
        refine Nat.pos_of_ne_zero fun h => hzero ?_
        rw [← hchar, h]
        rfl
      rw [toDigits_ofDigitChars_of_pos hds hpos, Nat.toDigits_of_lt_base hlt, hchar,
        trimZeros_cons_of_ne hzero]
      rfl

theorem le_ofDigitChars (ds : List Char) (n : ℕ) : n ≤ Nat.ofDigitChars 10 ds n := by
  induction ds generalizing n with
  | nil => simp
  | cons d ds ih =>
    rw [Nat.ofDigitChars_cons]
    exact le_trans (by omega) (ih _)

/-- **Digits are read if they are digits and their value stays below the bound.** -/
theorem readDigits_eq_ok_iff {bound value n : ℕ} {ds : List Char} (hvalue : value < bound) :
    readDigits bound value ds = .ok n ↔
      (∀ d ∈ ds, d.isDigit = true) ∧ Nat.ofDigitChars 10 ds value = n ∧ n < bound := by
  induction ds generalizing value with
  | nil =>
    simp only [readDigits, Except.ok.injEq, List.not_mem_nil, false_implies, implies_true, true_and,
      Nat.ofDigitChars_nil]
    constructor
    · rintro rfl
      exact ⟨rfl, hvalue⟩
    · exact And.left
  | cons d ds ih =>
    rw [readDigits, List.forall_mem_cons, Nat.ofDigitChars_cons]
    dsimp only
    split_ifs with hd hnext
    · rw [ih hnext, and_iff_right hd]
    · -- the value only grows from here on
      refine iff_of_false nofun ?_
      rintro ⟨-, rfl, hlt⟩
      exact hnext ((le_ofDigitChars ds _).trans_lt hlt)
    · exact iff_of_false nofun fun h => hd h.1.1

/-! ### Numbers -/

/-- Digits behind a plus sign or none. -/
def signed (plus : Bool) (digits : List Char) : List Char :=
  if plus = true then '+' :: digits else digits

theorem dropPlus_cons_of_ne {c : Char} (hc : c ≠ '+') (cs : List Char) :
    dropPlus (c :: cs) = c :: cs := by
  unfold dropPlus
  split
  · next h => exact absurd (List.cons.inj h).1 hc
  · rfl

theorem dropPlus_signed {plus : Bool} {ds : List Char} (hne : ds ≠ [])
    (hds : ∀ d ∈ ds, d.isDigit = true) : dropPlus (signed plus ds) = ds := by
  obtain ⟨d, ds, rfl⟩ := List.exists_cons_of_ne_nil hne
  cases plus with
  | true => rfl
  | false =>
    refine dropPlus_cons_of_ne ?_ ds
    rintro rfl
    exact absurd (hds '+' List.mem_cons_self) (by decide)

theorem exists_eq_signed {cs : List Char} (hne : cs ≠ []) :
    ∃ plus, cs = signed plus (dropPlus cs) ∧ dropPlus cs ≠ [] := by
  obtain ⟨c, cs, rfl⟩ := List.exists_cons_of_ne_nil hne
  unfold dropPlus
  split
  · next d ds h =>
    exact ⟨true, h, List.cons_ne_nil d ds⟩
  · exact ⟨false, rfl, hne⟩

/-- **A number is read from at least one digit**, behind a plus sign or none. -/
theorem readNumber_eq_ok_iff {bound n : ℕ} {cs : List Char} (hbound : 0 < bound) :
    readNumber bound cs = .ok n ↔ ∃ plus ds, cs = signed plus ds ∧ ds ≠ [] ∧
    (∀ d ∈ ds, d.isDigit = true) ∧
      Nat.ofDigitChars 10 ds 0 = n ∧ n < bound := by
  have hread : cs ≠ [] → readNumber bound cs = readDigits bound 0 (dropPlus cs) := fun hne => by
    rw [readNumber, if_neg (by simpa using hne)]
  constructor
  · intro h
    have hne : cs ≠ [] := by
      rintro rfl
      cases h
    rw [hread hne, readDigits_eq_ok_iff hbound] at h
    obtain ⟨plus, hcs, hds⟩ := exists_eq_signed hne
    exact ⟨plus, dropPlus cs, hcs, hds, h⟩
  · rintro ⟨plus, ds, rfl, hne, hds, hvalue⟩
    have hsigned : signed plus ds ≠ [] := by
      cases plus
      · exact hne
      · exact List.cons_ne_nil _ _
    rw [hread hsigned, dropPlus_signed hne hds, readDigits_eq_ok_iff hbound]
    exact ⟨hds, hvalue⟩

/-! ### Keys -/

namespace Key

/-- A text spells a letter, a plus sign or none, and at least one decimal digit. -/
structure IsSpelling (text : String) (tag : Char) (plus : Bool) (digits : List Char) : Prop where
  toList_eq : text.toList = tag :: signed plus digits
  isAlphabetic : Text.isAlphabetic tag = true
  ne_nil : digits ≠ []
  isDigit : ∀ d ∈ digits, d.isDigit = true

theorem IsSpelling.unique {text : String} {tag tag' : Char} {plus plus' : Bool}
    {digits digits' : List Char} (h : IsSpelling text tag plus digits)
    (h' : IsSpelling text tag' plus' digits') : tag = tag' ∧ digits = digits' := by
  obtain ⟨htag, hsigned⟩ := List.cons.inj (h.toList_eq.symm.trans h'.toList_eq)
  have hdrop : dropPlus (signed plus digits) = digits := dropPlus_signed h.ne_nil h.isDigit
  rw [hsigned, dropPlus_signed h'.ne_nil h'.isDigit] at hdrop
  exact ⟨htag, hdrop.symm⟩

/-- **What is read is what is spelled** and fits in 64 bits. -/
theorem ofText?_eq_ok_iff {text : String} {k : Key} : ofText? text = .ok k ↔
    ∃ plus digits, IsSpelling text k.tag plus digits ∧
    Nat.ofDigitChars 10 digits 0 = k.index.toNat := by
  have hsize : 0 < UInt64.size := by decide
  unfold ofText?
  constructor
  · intro h
    cases hchars : text.toList with
    | nil =>
      rw [hchars] at h
      cases h
    | cons c cs =>
      rw [hchars, ofChars?] at h
      split_ifs at h with hc
      split at h
      · next n hn =>
        cases h
        obtain ⟨plus, ds, hcs, hne, hds, hvalue, hlt⟩ := (readNumber_eq_ok_iff hsize).mp hn
        refine ⟨plus, ds, ⟨hcs ▸ hchars, hc, hne, hds⟩, ?_⟩
        rw [hvalue]
        exact (UInt64.toNat_ofNat_of_lt' hlt).symm
      · cases h
  · rintro ⟨plus, ds, hspelling, hvalue⟩
    have hn : readNumber UInt64.size (signed plus ds) = .ok k.index.toNat :=
      (readNumber_eq_ok_iff hsize).mpr ⟨plus, ds, rfl, hspelling.ne_nil, hspelling.isDigit, hvalue,
        k.index.toNat_lt⟩
    rw [hspelling.toList_eq, ofChars?, if_pos hspelling.isAlphabetic, hn]
    dsimp only
    rw [UInt64.ofNat_toNat]

theorem isSpelling_text {k : Key} (hk : Text.isAlphabetic k.tag = true) :
    IsSpelling k.text k.tag false (Nat.toDigits 10 k.index.toNat) := by
  refine ⟨?_, hk, Nat.toDigits_ne_nil, fun d hd => ?_⟩
  · rw [text, String.toList_ofList]
    rfl
  · exact Nat.isDigit_of_mem_toDigits (Nat.succ_pos 9) le_rfl hd

/-- **A key is read back from its text.** -/
theorem ofText?_text {k : Key} (hk : Text.isAlphabetic k.tag = true) : ofText? k.text = .ok k :=
  ofText?_eq_ok_iff.mpr ⟨false, _, isSpelling_text hk, Nat.ofDigitChars_ten_toDigits⟩

/-- **The text of the key that is read** is its spelling without the plus sign and the zeros in
front. -/
theorem IsSpelling.text_eq {text : String} {k : Key} {plus : Bool} {digits : List Char}
    (h : IsSpelling text k.tag plus digits)
    (hvalue : Nat.ofDigitChars 10 digits 0 = k.index.toNat) :
    k.text = String.ofList (k.tag :: trimZeros digits) := by
  rw [Key.text, chars, ← hvalue, toDigits_ofDigitChars h.isDigit]

/-- **Keys are read from their spellings.** A text is read if and only if it is a spelling of a
number of 64 bits, as the key with this letter and this number; the text of this key is the spelling
without plus sign and superfluous zeros. A key with a letter is read back from its text, and so
different ones have different texts. -/
theorem reads_spellings :
    (∀ text, (∃ k, ofText? text = .ok k) ↔
      ∃ tag plus digits, IsSpelling text tag plus digits ∧
        Nat.ofDigitChars 10 digits 0 ≤ 2 ^ 64 - 1) ∧
    (∀ text k tag plus digits, ofText? text = .ok k → IsSpelling text tag plus digits →
      k.tag = tag ∧ k.index.toNat = Nat.ofDigitChars 10 digits 0 ∧
      k.text = String.ofList (tag :: trimZeros digits)) ∧
    (∀ k : Key, Text.isAlphabetic k.tag = true → ofText? k.text = .ok k) ∧
    ∀ k l : Key, Text.isAlphabetic k.tag = true → Text.isAlphabetic l.tag = true →
      k.text = l.text → k = l := by
  refine ⟨fun text => ⟨?_, ?_⟩, ?_, fun k hk => ofText?_text hk, fun k l hk hl heq => ?_⟩
  · rintro ⟨k, hk⟩
    obtain ⟨plus, digits, hspelling, hvalue⟩ := ofText?_eq_ok_iff.mp hk
    exact ⟨k.tag, plus, digits, hspelling, hvalue ▸ Nat.le_sub_one_of_lt k.index.toNat_lt⟩
  · rintro ⟨tag, plus, digits, hspelling, hle⟩
    have hlt : Nat.ofDigitChars 10 digits 0 < UInt64.size := Nat.lt_of_le_sub_one (by decide) hle
    exact ⟨⟨tag, .ofNat (Nat.ofDigitChars 10 digits 0)⟩,
      ofText?_eq_ok_iff.mpr ⟨plus, digits, hspelling, (UInt64.toNat_ofNat_of_lt' hlt).symm⟩⟩
  · intro text k tag plus digits hk hspelling
    obtain ⟨plus', digits', hspelling', hvalue⟩ := ofText?_eq_ok_iff.mp hk
    obtain ⟨rfl, rfl⟩ := hspelling'.unique hspelling
    exact ⟨rfl, hvalue.symm, hspelling'.text_eq hvalue⟩
  · have hback := ofText?_text hk
    rw [heq, ofText?_text hl] at hback
    exact (Except.ok.inj hback).symm

/-- A plus sign and two zeros that are not needed. -/
theorem reads_spellings_plus_zeros : IsSpelling "x+007" 'x' true ['0', '0', '7'] ∧
    ∃ k, ofText? "x+007" = .ok k ∧ k.tag = 'x' ∧ k.index.toNat = 7 ∧ k.text = "x7" := by
  have hspelling : IsSpelling "x+007" 'x' true ['0', '0', '7'] :=
    ⟨rfl, by decide +kernel, by decide, List.all_eq_true.mp rfl⟩
  obtain ⟨haccepts, hreads, -, -⟩ := reads_spellings
  obtain ⟨k, hk⟩ := (haccepts "x+007").mpr ⟨'x', true, ['0', '0', '7'], hspelling, by decide⟩
  obtain ⟨htag, hindex, htext⟩ := hreads _ k _ _ _ hk hspelling
  exact ⟨hspelling, k, hk, htag, hindex, htext⟩

end Key

end Smoothing
