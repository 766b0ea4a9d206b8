import Mathlib.Data.List.Basic
import Mathlib.Data.List.Induction
import ScriptModel.Property.Key

/-!
# Which strings are indices

A string names an index when it is the decimal text of one, written as it always is: digits
alone, and no zero in front of others. The text of an integer that is no index, because it
is negative or too large, is a name like any other.
-/

namespace ScriptModel

/-- The string is the decimal text of the number: digits, at least one, and no zero in
front. -/
structure IsDecimal (s : String) (n : Nat) : Prop where
  nonempty : s.toList ≠ []
  digits : ∀ c ∈ s.toList, c.isDigit = true
  leading : s.toList.head? = some '0' → s.toList = ['0']
  value : Nat.ofDigitChars 10 s.toList 0 = n

/-! ## Digits -/

theorem exists_digitChar {c : Char} (hc : c.isDigit = true) :
    ∃ d < 10, c = d.digitChar := by
  have hrange : 48 ≤ c.toNat ∧ c.toNat ≤ 57 := Char.isDigit_iff_toNat.mp hc
  refine ⟨c.toNat - 48, by omega, ?_⟩
  rw [← Char.toNat_inj, Nat.toNat_digitChar_of_lt_ten (by omega)]
  omega

theorem eq_zero_of_head_toDigits {n : Nat} (h : (Nat.toDigits 10 n).head? = some '0') :
    n = 0 := by
  induction n using Nat.strongRecOn with
  | ind n ih =>
    rw [Nat.toDigits_eq_if (by decide)] at h
    split at h
    · exact Nat.digitChar_eq_zero.mp (Option.some.inj h)
    · rw [List.head?_append_of_ne_nil _ Nat.toDigits_ne_nil] at h
      have hzero := ih (n / 10) (by omega) h
      omega

/-- Digits without a zero in front are what their value is written with. The induction takes
the digits from the last one on, as they are written. -/
theorem toDigits_ofDigitChars {cs : List Char} (hne : cs ≠ [])
    (hds : ∀ c ∈ cs, c.isDigit = true) (hzero : cs.head? = some '0' → cs = ['0']) :
    Nat.toDigits 10 (Nat.ofDigitChars 10 cs 0) = cs := by
  induction cs using List.reverseRecOn with
  | nil => exact absurd rfl hne
  | append_singleton front c ih =>
    obtain ⟨d, hd, rfl⟩ := exists_digitChar (hds c (by simp))
    rw [Nat.ofDigitChars_append, Nat.ofDigitChars_cons_digitChar_of_lt_ten hd,
      Nat.ofDigitChars_nil]
    by_cases hfront : front = []
    · subst hfront
      rw [Nat.ofDigitChars_nil, Nat.mul_zero, Nat.zero_add, Nat.toDigits_of_lt_base hd,
        List.nil_append]
    · have hhead : front.head? ≠ some '0' := by
        intro h
        have hall := hzero (by rw [List.head?_append_of_ne_nil _ hfront, h])
        have hlength := congrArg List.length hall
        rw [List.length_append, List.length_singleton, List.length_singleton] at hlength
        exact hfront (List.length_eq_zero_iff.mp (by omega))
      have hwritten := ih hfront (fun c hc => hds c (List.mem_append_left _ hc))
        fun h => absurd h hhead
      have hpos : 0 < Nat.ofDigitChars 10 front 0 := by
        refine Nat.pos_of_ne_zero fun h0 => hhead ?_
        rw [← hwritten, h0]
        rfl
      rw [← Nat.toDigits_append_toDigits (by decide) hpos hd, hwritten,
        Nat.toDigits_of_lt_base hd]

theorem isDecimal_iff {s : String} {n : Nat} : IsDecimal s n ↔ s = n.repr := by
  constructor
  · intro h
    rw [← String.toList_inj, Nat.toList_repr, ← h.value,
      toDigits_ofDigitChars h.nonempty h.digits h.leading]
  · rintro rfl
    refine ⟨?_, ?_, ?_, ?_⟩ <;> rw [Nat.toList_repr]
    · exact Nat.toDigits_ne_nil
    · exact fun c hc => Nat.isDigit_of_mem_toDigits (by decide) (by decide) hc
    · intro h
      rw [eq_zero_of_head_toDigits h]
      rfl
    · exact Nat.ofDigitChars_ten_toDigits

namespace IsDecimal

theorem repr (n : Nat) : IsDecimal n.repr n := isDecimal_iff.mpr rfl

/-- A string is the text of one number at most. -/
theorem unique {s : String} {m n : Nat} (hm : IsDecimal s m) (hn : IsDecimal s n) : m = n :=
  hm.value.symm.trans hn.value

end IsDecimal

/-! ## Keys -/

namespace Key

theorem ofString_eq_index_iff {s : String} {i : UInt32} :
    ofString s = index i ↔ i.toNat < indexBound ∧ IsDecimal s i.toNat := by
  rw [isDecimal_iff]
  constructor
  · intro h
    unfold ofString at h
    dsimp only at h
    split at h
    · rename_i hn
      have hlt : Nat.ofDigitChars 10 s.toList 0 < 2 ^ 32 := Nat.lt_trans hn.1 (by decide)
      have hi : i.toNat = Nat.ofDigitChars 10 s.toList 0 := by
        cases h
        rw [UInt32.toNat_ofNat', Nat.mod_eq_of_lt hlt]
      rw [hi]
      exact ⟨hn.1, hn.2.symm⟩
    · cases h
  · rintro ⟨hi, rfl⟩
    rw [ofString_repr hi, UInt32.ofNat_toNat]

/-- What is no index is a name, and the name is the string. -/
theorem ofString_eq_name_or (s : String) :
    ofString s = name s ∨ ∃ i, ofString s = index i := by
  unfold ofString
  dsimp only
  split
  · exact .inr ⟨_, rfl⟩
  · exact .inl rfl

theorem ofString_eq_name {s : String}
    (h : ∀ n, n < indexBound → ¬ IsDecimal s n) : ofString s = name s := by
  refine (ofString_eq_name_or s).resolve_right fun ⟨i, hi⟩ => ?_
  obtain ⟨hlt, hdecimal⟩ := ofString_eq_index_iff.mp hi
  exact h _ hlt hdecimal

example : ["+7", "07", "7.0", "4294967295"].map ofString =
    ["+7", "07", "7.0", "4294967295"].map name := by decide

/-- The key of an integer: an index if it is one, and otherwise its text as a name. -/
def ofInteger (n : Int) : Key :=
  if 0 ≤ n ∧ n < indexBound then index (UInt32.ofNat n.toNat) else name n.repr

/-- The text of an integer stands for the key of the integer. -/
theorem ofString_int_repr (n : Int) : ofString n.repr = ofInteger n := by
  unfold ofInteger
  cases n with
  | ofNat m =>
    have hrepr : (Int.ofNat m).repr = m.repr := rfl
    rw [hrepr]
    split
    · rename_i hm
      exact ofString_repr (Int.ofNat_lt.mp hm.2)
    · rename_i hm
      refine ofString_eq_name fun k hk hdecimal => hm ⟨Int.natCast_nonneg m, ?_⟩
      rw [(IsDecimal.repr m).unique hdecimal]
      exact Int.ofNat_lt.mpr hk
  | negSucc m =>
    rw [if_neg fun h => absurd h.1 (by omega)]
    refine ofString_eq_name fun k _ hdecimal => ?_
    -- A minus sign is no digit.
    have hminus : '-' ∈ (Int.negSucc m).repr.toList := by
      have hrepr : (Int.negSucc m).repr = "-" ++ m.succ.repr := rfl
      rw [hrepr, String.toList_append]
      exact List.mem_append_left _ (List.mem_singleton_self _)
    have hdigit := hdecimal.digits _ hminus
    cases hdigit

end Key
end ScriptModel
