import Mathlib.Algebra.Group.Nat.Defs
import Mathlib.Data.List.TakeWhile
import ScriptModel.Number.Literal

/-!
# The grammar of numeric strings

A numeral is nothing at all, an infinity, a hexadecimal literal or a decimal literal. The
reading of a string cuts the blanks off at both ends and follows the grammar for what is
left, with two exceptions, both about hexadecimal literals: one that has more digits than
fit into 64 bits is not read, and one with a plus sign before its digits is.
-/

namespace ScriptModel

namespace Text

/-- No blank stands first. -/
def StartsBare (cs : List Char) : Prop := ∀ c ∈ cs.head?, isBlank c = false

theorem startsBare_trimStart (cs : List Char) : StartsBare (trimStart cs) := by
  intro c hc
  have hnot := List.head?_dropWhile_not isBlank cs
  rw [show (cs.dropWhile isBlank).head? = some c from hc] at hnot
  exact hnot

/-- What is cut off at the start is blank. -/
theorem exists_trimStart (cs : List Char) :
    ∃ before, cs = before ++ trimStart cs ∧ ∀ c ∈ before, isBlank c = true :=
  ⟨cs.takeWhile isBlank, List.takeWhile_append_dropWhile.symm,
    fun _ hc => List.mem_takeWhile_imp hc⟩

/-- Trimming cuts off blanks at both ends, and all that stand there. -/
theorem exists_trim (cs : List Char) : ∃ before after, cs = before ++ trim cs ++ after ∧
    (∀ c ∈ before ++ after, isBlank c = true) ∧ StartsBare (trim cs) ∧
      StartsBare (trim cs).reverse := by
  obtain ⟨before, hstart, hbefore⟩ := exists_trimStart cs
  obtain ⟨after, hend, hafter⟩ := exists_trimStart (trimStart cs).reverse
  have htrim : trimStart cs = trim cs ++ after.reverse := by
    have hreverse := congrArg List.reverse hend
    rwa [List.reverse_reverse, List.reverse_append] at hreverse
  refine ⟨before, after.reverse, ?_, fun c hc => ?_, fun c hc => ?_, ?_⟩
  · rw [List.append_assoc, ← htrim]
    exact hstart
  · rcases List.mem_append.mp hc with hc | hc
    · exact hbefore c hc
    · exact hafter c (List.mem_reverse.mp hc)
  · refine startsBare_trimStart cs c ?_
    rw [htrim, List.head?_append]
    rw [Option.mem_def] at hc ⊢
    rw [hc]
    rfl
  · rw [trim, trimEnd, List.reverse_reverse]
    exact startsBare_trimStart _

end Text

/-! ## The grammar -/

namespace Numeral

/-- A sign, or none. -/
inductive Sign : List Char → Prop where
  | none : Sign []
  | plus : Sign ['+']
  | minus : Sign ['-']

/-- Decimal digits, at least one. -/
def Digits (cs : List Char) : Prop := cs ≠ [] ∧ ∀ c ∈ cs, c.isDigit = true

/-- A digit before or after the point, which may be missing after a digit. -/
inductive Mantissa : List Char → Prop where
  | whole {ds : List Char} : Digits ds → Mantissa ds
  | point {ds fs : List Char} : Digits ds → (∀ c ∈ fs, c.isDigit = true) →
    Mantissa (ds ++ '.' :: fs)
  | fraction {fs : List Char} : Digits fs → Mantissa ('.' :: fs)

/-- An exponent, or none. -/
inductive Exponent : List Char → Prop where
  | none : Exponent []
  | mark {e : Char} {sign ds : List Char} : e = 'e' ∨ e = 'E' → Sign sign → Digits ds →
    Exponent (e :: (sign ++ ds))

inductive DecimalForm : List Char → Prop where
  | mk {sign mantissa exponent : List Char} : Sign sign → Mantissa mantissa →
    Exponent exponent →
    DecimalForm (sign ++ (mantissa ++ exponent))

def IsHexDigit (c : Char) : Prop :=
  c.isDigit = true ∨ ('a' ≤ c ∧ c ≤ 'f') ∨ ('A' ≤ c ∧ c ≤ 'F')

/-- Hexadecimal digits, at least one. -/
def HexDigits (cs : List Char) : Prop := cs ≠ [] ∧ ∀ c ∈ cs, IsHexDigit c

/-- The mark of a hexadecimal literal. -/
inductive HexMark : List Char → Prop where
  | lower : HexMark ['0', 'x']
  | upper : HexMark ['0', 'X']

end Numeral

open Numeral in
/-- What a numeric string is, blanks apart. -/
inductive Numeral : List Char → Prop where
  | empty : Numeral []
  | infinity {sign : List Char} : Sign sign → Numeral (sign ++ "Infinity".toList)
  | hexadecimal {mark ds : List Char} : HexMark mark → HexDigits ds → Numeral (mark ++ ds)
  | decimal {cs : List Char} : DecimalForm cs → Numeral cs

namespace Numeral

/-- The digits that count: the zeros in front do not. -/
def significant (ds : List Char) : List Char := ds.dropWhile (· == '0')

/-- A hexadecimal literal of more than 64 bits. -/
def Wide (cs : List Char) : Prop :=
  ∃ mark ds, HexMark mark ∧ HexDigits ds ∧ cs = mark ++ ds ∧ 16 < (significant ds).length

/-- What would be a hexadecimal literal of 64 bits but for the plus sign before its
digits. -/
def Signed (cs : List Char) : Prop :=
  ∃ mark ds, HexMark mark ∧ HexDigits ds ∧ cs = mark ++ '+' :: ds ∧
    (significant ds).length ≤ 16

end Numeral

/-! ## Decimal literals -/

namespace DecimalLiteral

open Numeral

/-- No digit stands first. -/
def EndsDigits (cs : List Char) : Prop := ∀ c ∈ cs.head?, c.isDigit = false

/-- Digits are taken up to the first other character. -/
theorem takeWhile_digits {ds rest : List Char} (hds : ∀ c ∈ ds, c.isDigit = true)
    (hrest : EndsDigits rest) : (ds ++ rest).takeWhile Char.isDigit = ds ∧
      (ds ++ rest).dropWhile Char.isDigit = rest := by
  have hstop : rest.takeWhile Char.isDigit = [] ∧ rest.dropWhile Char.isDigit = rest := by
    cases rest with
    | nil => exact ⟨rfl, rfl⟩
    | cons c cs =>
      have hc : c.isDigit = false := hrest c rfl
      simp [hc]
  rw [List.takeWhile_append_of_pos hds, List.dropWhile_append_of_pos hds, hstop.1, hstop.2,
    List.append_nil]
  exact ⟨rfl, rfl⟩

theorem all_takeWhile (cs : List Char) :
    ∀ c ∈ cs.takeWhile Char.isDigit, c.isDigit = true :=
  fun _ hc => List.mem_takeWhile_imp hc

/-- A sign is read where there is one. -/
theorem exists_sign (cs : List Char) :
    ∃ sign, Sign sign ∧ cs = sign ++ (readSign cs).2 := by
  unfold readSign
  split
  · exact ⟨['-'], .minus, rfl⟩
  · exact ⟨['+'], .plus, rfl⟩
  · exact ⟨[], .none, rfl⟩

/-- What can follow a sign is not one itself. -/
theorem readSign_append {sign cs : List Char} (hsign : Sign sign)
    (hcs : ∀ c ∈ cs.head?, c ≠ '+' ∧ c ≠ '-') : (readSign (sign ++ cs)).2 = cs := by
  cases hsign with
  | none =>
    rw [List.nil_append]
    unfold readSign
    split
    · exact absurd rfl (hcs '-' rfl).2
    · exact absurd rfl (hcs '+' rfl).1
    · rfl
  | plus => rfl
  | minus => rfl

theorem ne_sign_of_isDigit {c : Char} (hc : c.isDigit = true) : c ≠ '+' ∧ c ≠ '-' := by
  constructor <;> rintro rfl <;> cases hc

theorem Digits.ne_sign {ds rest : List Char} (hds : Digits ds) :
    ∀ c ∈ (ds ++ rest).head?, c ≠ '+' ∧ c ≠ '-' := by
  intro c hc
  cases ds with
  | nil => exact absurd rfl hds.1
  | cons d ds =>
    cases hc
    exact ne_sign_of_isDigit (hds.2 _ List.mem_cons_self)

/-- An exponent is read from exactly what is one. -/
theorem readExponent_isSome_iff {cs : List Char} :
    (readExponent cs).isSome = true ↔ Exponent cs := by
  cases cs with
  | nil => exact ⟨fun _ => .none, fun _ => rfl⟩
  | cons e cs =>
    rw [readExponent]
    constructor
    · intro h
      split at h
      · rename_i hmark
        dsimp only at h
        split at h
        · rename_i hdigits
          obtain ⟨sign, hsign, hcs⟩ := exists_sign cs
          rw [hcs]
          exact .mark hmark hsign ⟨hdigits.1, List.all_eq_true.mp hdigits.2⟩
        · cases h
      · cases h
    · rintro (_ | ⟨hmark, hsign, hds⟩)
      rename_i sign ds
      have hrest : (readSign (sign ++ ds)).2 = ds := by
        have hne := @Digits.ne_sign _ [] hds
        rw [List.append_nil] at hne
        exact readSign_append hsign hne
      rw [if_pos hmark]
      dsimp only
      rw [hrest, if_pos ⟨hds.1, List.all_eq_true.mpr hds.2⟩]
      rfl

/-- No exponent begins with a digit. -/
theorem endsDigits_exponent {cs : List Char} (h : Exponent cs) : EndsDigits cs := by
  intro c hc
  cases h with
  | none => cases hc
  | mark hmark _ _ =>
    cases hc
    rcases hmark with rfl | rfl <;> rfl

theorem isSome_read (cs : List Char) : (read cs).isSome = true ↔
    let body := (readSign cs).2
    let parts := readFraction (body.dropWhile Char.isDigit)
    ¬ (body.takeWhile Char.isDigit = [] ∧ parts.1 = []) ∧ Exponent parts.2 := by
  rw [read]
  dsimp only
  split
  · rename_i hnone
    simp [hnone]
  · rename_i hsome
    rw [Option.isSome_map, readExponent_isSome_iff]
    exact (and_iff_right hsome).symm

/-- A mantissa is cut off from what follows it. -/
theorem exists_mantissa {body : List Char} (hsome : ¬ (body.takeWhile Char.isDigit = [] ∧
    (readFraction (body.dropWhile Char.isDigit)).1 = [])) :
    ∃ mantissa, Mantissa mantissa ∧
      body = mantissa ++ (readFraction (body.dropWhile Char.isDigit)).2 := by
  have hbody : body = body.takeWhile Char.isDigit ++ body.dropWhile Char.isDigit :=
    List.takeWhile_append_dropWhile.symm
  have hwhole := all_takeWhile body
  generalize body.takeWhile Char.isDigit = whole at hsome hbody hwhole
  generalize body.dropWhile Char.isDigit = rest at hsome hbody
  subst hbody
  unfold readFraction at hsome ⊢
  split at hsome
  · rename_i cs
    have hcs : cs = cs.takeWhile Char.isDigit ++ cs.dropWhile Char.isDigit :=
      List.takeWhile_append_dropWhile.symm
    refine ⟨whole ++ '.' :: cs.takeWhile Char.isDigit, ?_, ?_⟩
    · cases whole with
      | nil => exact .fraction ⟨fun hnil => hsome ⟨rfl, hnil⟩, all_takeWhile cs⟩
      | cons d ds => exact .point ⟨List.cons_ne_nil d ds, hwhole⟩ (all_takeWhile cs)
    · rw [List.append_assoc, List.cons_append, ← hcs]
  · exact ⟨whole, .whole ⟨fun hnil => hsome ⟨hnil, rfl⟩, hwhole⟩, rfl⟩

/-- A mantissa is read whole. -/
theorem read_mantissa {mantissa rest : List Char} (hm : Mantissa mantissa)
    (hrest : Exponent rest) :
    (readFraction ((mantissa ++ rest).dropWhile Char.isDigit)).2 = rest ∧
      ¬ ((mantissa ++ rest).takeWhile Char.isDigit = [] ∧
        (readFraction ((mantissa ++ rest).dropWhile Char.isDigit)).1 = []) := by
  have hends := endsDigits_exponent hrest
  have hpoint : ∀ cs : List Char, EndsDigits ('.' :: cs) := fun cs c hc => by
    cases hc
    rfl
  cases hm with
  | whole hds =>
    obtain ⟨htake, hdrop⟩ := takeWhile_digits hds.2 hends
    rw [htake, hdrop]
    refine ⟨?_, fun h => hds.1 h.1⟩
    cases hrest with
    | none => rfl
    | mark hmark _ _ => rcases hmark with rfl | rfl <;> rfl
  | @point ds fs hds hfs =>
    obtain ⟨htake, hdrop⟩ := takeWhile_digits hds.2 (hpoint (fs ++ rest))
    rw [List.append_assoc, List.cons_append, htake, hdrop]
    exact ⟨(takeWhile_digits hfs hends).2, fun h => hds.1 h.1⟩
  | @fraction fs hfs =>
    obtain ⟨htake, hdrop⟩ := @takeWhile_digits [] _ nofun (hpoint (fs ++ rest))
    rw [List.nil_append] at htake hdrop
    rw [List.cons_append, htake, hdrop]
    obtain ⟨htake', hdrop'⟩ := takeWhile_digits hfs.2 hends
    exact ⟨hdrop', fun h => hfs.1 (htake'.symm.trans h.2)⟩

/-- A literal is read from exactly what the grammar allows. -/
theorem read_isSome_iff {cs : List Char} : (read cs).isSome = true ↔ DecimalForm cs := by
  rw [isSome_read]
  constructor
  · rintro ⟨hsome, hexponent⟩
    obtain ⟨sign, hsign, hcs⟩ := exists_sign cs
    obtain ⟨mantissa, hmantissa, hbody⟩ := exists_mantissa hsome
    rw [hcs, hbody]
    exact .mk hsign hmantissa hexponent
  · rintro ⟨hsign, hmantissa, hexponent⟩
    rename_i sign mantissa exponent
    have hne : ∀ c ∈ (mantissa ++ exponent).head?, c ≠ '+' ∧ c ≠ '-' := by
      cases hmantissa with
      | whole hds => exact Digits.ne_sign hds
      | point hds hfs =>
        rw [List.append_assoc]
        exact Digits.ne_sign hds
      | fraction hfs =>
        intro c hc
        cases hc
        decide
    obtain ⟨hrest, hsome⟩ := read_mantissa hmantissa hexponent
    dsimp only
    rw [readSign_append hsign hne, hrest]
    exact ⟨hsome, hexponent⟩

end DecimalLiteral

/-! ## Hexadecimal literals -/

namespace Number

open Numeral

theorem isSome_hexDigit? {c : Char} : (hexDigit? c).isSome = true ↔ IsHexDigit c := by
  have hlower : ('a' ≤ c ∧ c ≤ 'f') ↔ 97 ≤ c.toNat ∧ c.toNat ≤ 102 := Iff.rfl
  have hupper : ('A' ≤ c ∧ c ≤ 'F') ↔ 65 ≤ c.toNat ∧ c.toNat ≤ 70 := Iff.rfl
  rw [IsHexDigit, hlower, hupper, hexDigit?]
  split
  · simp [*]
  · split
    · simp [*]
    · split <;> simp [*]

theorem hexDigits_iff {cs : List Char} :
    (!cs.isEmpty && cs.all fun c => (hexDigit? c).isSome) = true ↔ HexDigits cs := by
  simp [HexDigits, isSome_hexDigit?]

instance : DecidablePred HexDigits := fun _ => decidable_of_iff _ hexDigits_iff

/-- One digit is worth less than sixteen, and nothing only when it is a zero. -/
theorem hexDigit?_bounds {c : Char} {n : Nat} (h : hexDigit? c = some n) :
    n < 16 ∧ (n = 0 ↔ c = '0') := by
  have hzero : c = '0' ↔ c.toNat = 48 := by
    rw [← Char.toNat_inj]
    rfl
  rw [hzero]
  unfold hexDigit? at h
  split at h
  · rename_i hc
    have hrange : 48 ≤ c.toNat ∧ c.toNat ≤ 57 := Char.isDigit_iff_toNat.mp hc
    cases h
    omega
  · split at h
    · cases h
      omega
    · split at h
      · cases h
        omega
      · cases h

/-- A run of digits adds four bits for every digit to what came before. -/
theorem exists_hexValue {ds : List Char} (hds : ∀ c ∈ ds, IsHexDigit c) (acc : Nat) :
    ∃ n, ds.foldlM (fun n c => (hexDigit? c).map (16 * n + ·)) acc = some n ∧
      acc * 16 ^ ds.length ≤ n ∧ n < (acc + 1) * 16 ^ ds.length := by
  induction ds generalizing acc with
  | nil => exact ⟨acc, rfl, by simp, by simp⟩
  | cons c ds ih =>
    obtain ⟨d, hd⟩ :=
      Option.isSome_iff_exists.mp (isSome_hexDigit?.mpr (hds c List.mem_cons_self))
    obtain ⟨hlt, -⟩ := hexDigit?_bounds hd
    obtain ⟨n, hn, hlow, hhigh⟩ :=
      ih (fun e he => hds e (List.mem_cons_of_mem c he)) (16 * acc + d)
    refine ⟨n, ?_, ?_, ?_⟩
    · rw [List.foldlM_cons, hd]
      exact hn
    · calc acc * 16 ^ (ds.length + 1) = 16 * acc * 16 ^ ds.length := by
            rw [Nat.pow_succ', ← Nat.mul_assoc, Nat.mul_comm acc]
        _ ≤ (16 * acc + d) * 16 ^ ds.length := Nat.mul_le_mul_right _ (by omega)
        _ ≤ n := hlow
    · calc n < (16 * acc + d + 1) * 16 ^ ds.length := hhigh
        _ ≤ 16 * (acc + 1) * 16 ^ ds.length := Nat.mul_le_mul_right _ (by omega)
        _ = (acc + 1) * 16 ^ (ds.length + 1) := by
            rw [Nat.pow_succ', ← Nat.mul_assoc, Nat.mul_comm (acc + 1)]

/-- Only digits have a value. -/
theorem hexDigits_of_value {ds : List Char} {acc n : Nat}
    (h : ds.foldlM (fun n c => (hexDigit? c).map (16 * n + ·)) acc = some n) :
    ∀ c ∈ ds, IsHexDigit c := by
  induction ds generalizing acc with
  | nil => exact nofun
  | cons c ds ih =>
    rw [List.foldlM_cons] at h
    obtain ⟨m, hm, hrest⟩ := Option.bind_eq_some_iff.mp h
    obtain ⟨d, hd, -⟩ := Option.map_eq_some_iff.mp hm
    intro e he
    rcases List.mem_cons.mp he with rfl | he
    · exact isSome_hexDigit?.mp (Option.isSome_iff_exists.mpr ⟨d, hd⟩)
    · exact ih hrest e he

/-- Zeros in front are worth nothing. -/
theorem hexValue?_significant (ds : List Char) :
    hexValue? ds = hexValue? (significant ds) := by
  induction ds with
  | nil => rfl
  | cons c ds ih =>
    by_cases hc : c = '0'
    · subst hc
      exact ih
    · rw [significant, List.dropWhile_cons_of_neg (by simpa using hc)]

/-- What fits into 64 bits has sixteen digits at most that count. -/
theorem exists_hexValue? {ds : List Char} (hds : ∀ c ∈ ds, IsHexDigit c) :
    ∃ n, hexValue? ds = some n ∧ (n < 2 ^ 64 ↔ (significant ds).length ≤ 16) := by
  have hsub : ∀ c ∈ significant ds, IsHexDigit c := fun c hc =>
    hds c ((List.dropWhile_sublist _).subset hc)
  rw [hexValue?_significant]
  cases hsig : significant ds with
  | nil => exact ⟨0, rfl, by simp⟩
  | cons c cs =>
    rw [hsig] at hsub
    obtain ⟨d, hd⟩ := Option.isSome_iff_exists.mp
      (isSome_hexDigit?.mpr (hsub c List.mem_cons_self))
    obtain ⟨hlt, hzero⟩ := hexDigit?_bounds hd
    have hpos : 0 < d := by
      refine Nat.pos_of_ne_zero fun h0 => ?_
      have hfirst : ¬ (c == '0') = true := by
        have hhead := List.head?_dropWhile_not (· == '0') ds
        rw [show ds.dropWhile (· == '0') = c :: cs from hsig] at hhead
        simpa using hhead
      exact hfirst (beq_iff_eq.mpr (hzero.mp h0))
    obtain ⟨n, hn, hlow, hhigh⟩ :=
      exists_hexValue (fun e he => hsub e (List.mem_cons_of_mem c he)) d
    refine ⟨n, ?_, ?_⟩
    · rw [hexValue?, List.foldlM_cons, hd]
      simpa using hn
    · -- The first digit that counts is worth at least one.
      constructor
      · intro hbits
        by_contra hlong
        have hpow : 16 ^ 16 ≤ 16 ^ cs.length := Nat.pow_le_pow_right (by decide) (by
          rw [List.length_cons] at hlong
          omega)
        have hone : 16 ^ cs.length ≤ d * 16 ^ cs.length := Nat.le_mul_of_pos_left _ hpos
        omega
      · intro hshort
        have hpow : 16 ^ (cs.length + 1) ≤ 16 ^ 16 :=
          Nat.pow_le_pow_right (by decide) hshort
        calc n < (d + 1) * 16 ^ cs.length := hhigh
          _ ≤ 16 * 16 ^ cs.length := Nat.mul_le_mul_right _ (by omega)
          _ = 16 ^ (cs.length + 1) := Nat.pow_succ'.symm
          _ ≤ 2 ^ 64 := hpow

theorem isSome_hexValue_bind {ds : List Char} :
    ((hexValue? ds).bind fun n => if n < Nat.pow 2 64 then some n else none).isSome = true ↔
      (∀ c ∈ ds, IsHexDigit c) ∧ (significant ds).length ≤ 16 := by
  constructor
  · intro h
    obtain ⟨m, hm⟩ := Option.isSome_iff_exists.mp h
    obtain ⟨n, hn, hfits⟩ := Option.bind_eq_some_iff.mp hm
    have hds := hexDigits_of_value hn
    obtain ⟨n', hn', hiff⟩ := exists_hexValue? hds
    cases hn.symm.trans hn'
    split at hfits
    · rename_i hlt
      exact ⟨hds, hiff.mp hlt⟩
    · cases hfits
  · rintro ⟨hds, hshort⟩
    obtain ⟨n, hn, hiff⟩ := exists_hexValue? hds
    have hlt : n < Nat.pow 2 64 := hiff.mpr hshort
    rw [hn, Option.bind_some, if_pos hlt]
    rfl

/-- What follows the mark is read when it is digits, after a plus sign or not, and not too
many. -/
theorem isSome_readHex {cs : List Char} : (readHex cs).isSome = true ↔
    ∃ ds, (cs = ds ∨ cs = '+' :: ds) ∧ HexDigits ds ∧ (significant ds).length ≤ 16 := by
  have hplus : ∀ ds, ¬ HexDigits ('+' :: ds) := fun ds h => by
    have hdigit := isSome_hexDigit?.mpr (h.2 '+' List.mem_cons_self)
    cases hdigit
  have hread : ∀ ds : List Char, (if ds = [] then none else (hexValue? ds).bind fun n =>
      if n < Nat.pow 2 64 then some n else none).isSome = true ↔
        HexDigits ds ∧ (significant ds).length ≤ 16 := by
    intro ds
    split
    · rename_i hnil
      exact ⟨fun h => (nomatch h), fun h => absurd hnil h.1.1⟩
    · rename_i hcons
      rw [isSome_hexValue_bind, HexDigits, and_iff_right hcons]
  unfold readHex
  dsimp only
  rw [hread]
  split
  · rename_i ds
    constructor
    · exact fun h => ⟨ds, .inr rfl, h⟩
    · rintro ⟨ds', rfl | hds, h⟩
      · exact absurd h.1 (hplus ds)
      · cases hds
        exact h
  · rename_i hne
    constructor
    · exact fun h => ⟨cs, .inl rfl, h⟩
    · rintro ⟨ds', rfl | hds, h⟩
      · exact h
      · exact absurd hds (hne ds')

/-! ## Not a number -/

theorem isNaN_ofPayload {p : Nat} (hp : p ≤ Binary64.infinityPayload) (negative : Bool) :
    (Binary64.ofPayload negative p).isNaN = false := by
  have hlt : p < Nat.pow 2 63 := Nat.lt_of_le_of_lt hp (by decide)
  rw [Binary64.isNaN, Binary64.payload_ofPayload hlt]
  exact decide_eq_false (Nat.not_lt_of_le hp)

theorem isNaN_ofInt (i : Int) : (Binary64.ofInt i).isNaN = false :=
  isNaN_ofPayload (Binary64.roundPayload_le _ _) _

theorem isNaN_ofBinary64 (x : Binary64) : (ofBinary64 x).isNaN = x.isNaN := by
  unfold ofBinary64
  split
  · rename_i hnan
    rw [hnan]
    rfl
  · rename_i hnot
    rw [Bool.not_eq_true] at hnot
    rw [hnot]
    split
    · split <;> rfl
    · split
      · exact isNaN_ofInt _
      · exact hnot

/-- What a decimal literal denotes is a number, however large. -/
theorem isNaN_toBinary64 (l : DecimalLiteral) : l.toBinary64.isNaN = false := by
  refine isNaN_ofPayload ?_ _
  unfold DecimalLiteral.nearestPayload
  dsimp only
  split
  · exact Nat.zero_le _
  · split
    · exact Nat.le_refl _
    · split
      · exact Nat.zero_le _
      · exact Binary64.roundPayload_le _ _

end Number

/-! ## Which strings denote numbers -/

namespace Numeral

open Number

theorem hexBody?_append {mark : List Char} (hmark : HexMark mark) (cs : List Char) :
    hexBody? (mark ++ cs) = some cs := by
  cases hmark <;> rfl

theorem exists_mark {cs body : List Char} (h : hexBody? cs = some body) :
    ∃ mark, HexMark mark ∧ cs = mark ++ body := by
  unfold hexBody? at h
  split at h
  · cases h
    exact ⟨_, .lower, rfl⟩
  · cases h
    exact ⟨_, .upper, rfl⟩
  · cases h

/-- What has the mark of a hexadecimal literal is nothing else. -/
theorem hexDigits_of_mark {mark cs : List Char} (hmark : HexMark mark)
    (h : Numeral (mark ++ cs)) : HexDigits cs := by
  generalize hall : mark ++ cs = all at h
  have hbody := hexBody?_append hmark cs
  rw [hall] at hbody
  cases h with
  | empty => cases hbody
  | infinity hsign => cases hsign <;> cases hbody
  | hexadecimal hmark' hds =>
    rw [hexBody?_append hmark'] at hbody
    cases hbody
    exact hds
  | decimal hdecimal =>
    have hread := DecimalLiteral.read_isSome_iff.mpr hdecimal
    rw [← hall] at hread
    cases hmark <;> cases hread

theorem Wide.numeral {cs : List Char} (h : Wide cs) : Numeral cs := by
  obtain ⟨mark, ds, hmark, hds, rfl, -⟩ := h
  exact .hexadecimal hmark hds

theorem Signed.not_numeral {cs : List Char} (h : Signed cs) : ¬ Numeral cs := by
  obtain ⟨mark, ds, hmark, -, rfl, -⟩ := h
  intro hnumeral
  have hplus := (hexDigits_of_mark hmark hnumeral).2 '+' List.mem_cons_self
  cases isSome_hexDigit?.mpr hplus

/-- What stands after the mark is determined. -/
theorem eq_of_marks {mark mark' cs ds : List Char} (hmark : HexMark mark)
    (hmark' : HexMark mark') (h : mark ++ cs = mark' ++ ds) : cs = ds := by
  have hbody := hexBody?_append hmark cs
  rw [h, hexBody?_append hmark'] at hbody
  exact (Option.some.inj hbody).symm

theorem wide_append_iff {mark cs : List Char} (hmark : HexMark mark) :
    Wide (mark ++ cs) ↔ HexDigits cs ∧ 16 < (significant cs).length := by
  constructor
  · rintro ⟨mark', ds, hmark', hds, hcs, hlong⟩
    rw [eq_of_marks hmark hmark' hcs]
    exact ⟨hds, hlong⟩
  · rintro ⟨hds, hlong⟩
    exact ⟨mark, cs, hmark, hds, rfl, hlong⟩

theorem signed_append_iff {mark cs : List Char} (hmark : HexMark mark) :
    Signed (mark ++ cs) ↔
      ∃ ds, cs = '+' :: ds ∧ HexDigits ds ∧ (significant ds).length ≤ 16 := by
  constructor
  · rintro ⟨mark', ds, hmark', hds, hcs, hshort⟩
    exact ⟨ds, eq_of_marks hmark hmark' hcs, hds, hshort⟩
  · rintro ⟨ds, rfl, hds, hshort⟩
    exact ⟨mark, ds, hmark, hds, rfl, hshort⟩

theorem not_marked {cs : List Char} (h : hexBody? cs = none) : ¬ Wide cs ∧ ¬ Signed cs := by
  constructor
  · rintro ⟨mark, ds, hmark, -, rfl, -⟩
    rw [hexBody?_append hmark] at h
    cases h
  · rintro ⟨mark, ds, hmark, -, rfl, -⟩
    rw [hexBody?_append hmark] at h
    cases h

/-- Without the mark of a hexadecimal literal the grammar decides. -/
theorem isNaN_of_not_marked {cs : List Char} (hcs : cs ≠ [])
    (hinfinity : ∀ sign, Sign sign → cs ≠ sign ++ "Infinity".toList)
    (h : hexBody? cs = none) : (ofTrimmed cs).isNaN = false ↔ Numeral cs := by
  have hnumeral : Numeral cs ↔ DecimalLiteral.read cs ≠ none := by
    rw [← Option.isSome_iff_ne_none, DecimalLiteral.read_isSome_iff]
    refine ⟨fun hn => ?_, .decimal⟩
    cases hn with
    | empty => exact absurd rfl hcs
    | infinity hsign => exact absurd rfl (hinfinity _ hsign)
    | hexadecimal hmark hds =>
      rw [hexBody?_append hmark] at h
      cases h
    | decimal hdecimal => exact hdecimal
  have hpositive : ¬ (cs = "Infinity".toList ∨ cs = "+Infinity".toList) :=
    not_or.mpr ⟨hinfinity [] .none, hinfinity ['+'] .plus⟩
  have hnegative : cs ≠ "-Infinity".toList := hinfinity ['-'] .minus
  rw [hnumeral, ofTrimmed, if_neg hcs, if_neg hpositive, if_neg hnegative, h]
  dsimp only
  cases DecimalLiteral.read cs with
  | none => exact ⟨fun hnan => (nomatch hnan), fun hne => absurd rfl hne⟩
  | some l =>
    exact ⟨fun _ => nofun, fun _ => (isNaN_ofBinary64 _).trans (isNaN_toBinary64 l)⟩

/-- With the mark, what follows must be what is read. -/
theorem isNaN_of_marked {mark body : List Char} (hmark : HexMark mark) :
    (ofTrimmed (mark ++ body)).isNaN = false ↔
      ∃ ds, (body = ds ∨ body = '+' :: ds) ∧ HexDigits ds ∧
        (significant ds).length ≤ 16 := by
  have hne : mark ++ body ≠ [] ∧ ∀ cs : List Char, cs ∈ ["Infinity".toList, "+Infinity".toList,
      "-Infinity".toList] → mark ++ body ≠ cs := by
    cases hmark <;> simp
  rw [← isSome_readHex, ofTrimmed, if_neg hne.1,
    if_neg (not_or.mpr ⟨hne.2 _ (by simp), hne.2 _ (by simp)⟩), if_neg (hne.2 _ (by simp)),
    hexBody?_append hmark]
  dsimp only
  cases readHex body with
  | none => exact ⟨fun hnan => (nomatch hnan), fun hsome => (nomatch hsome)⟩
  | some n => exact ⟨fun _ => rfl, fun _ => (isNaN_ofBinary64 _).trans (isNaN_ofInt n)⟩

theorem isNaN_ofTrimmed (cs : List Char) :
    (ofTrimmed cs).isNaN = false ↔ (Numeral cs ∧ ¬ Wide cs) ∨ Signed cs := by
  cases hbody : hexBody? cs with
  | some body =>
    obtain ⟨mark, hmark, rfl⟩ := exists_mark hbody
    rw [isNaN_of_marked hmark, wide_append_iff hmark, signed_append_iff hmark]
    constructor
    · rintro ⟨ds, rfl | rfl, hds, hshort⟩
      · exact .inl ⟨.hexadecimal hmark hds, fun hwide => Nat.not_lt_of_le hshort hwide.2⟩
      · exact .inr ⟨ds, rfl, hds, hshort⟩
    · rintro (⟨hnumeral, hwide⟩ | ⟨ds, rfl, hds, hshort⟩)
      · have hds := hexDigits_of_mark hmark hnumeral
        exact ⟨body, .inl rfl, hds, Nat.le_of_not_lt fun hlong => hwide ⟨hds, hlong⟩⟩
      · exact ⟨ds, .inr rfl, hds, hshort⟩
  | none =>
    obtain ⟨hwide, hsigned⟩ := not_marked hbody
    rw [or_iff_left hsigned, and_iff_left hwide]
    by_cases hnil : cs = []
    · subst hnil
      exact ⟨fun _ => .empty, fun _ => isNaN_ofInt 0⟩
    · by_cases hinfinity : ∃ sign, Sign sign ∧ cs = sign ++ "Infinity".toList
      · obtain ⟨sign, hsign, rfl⟩ := hinfinity
        exact ⟨fun _ => .infinity hsign, fun _ => by cases hsign <;> rfl⟩
      · exact isNaN_of_not_marked hnil
          (fun sign hsign hcs => hinfinity ⟨sign, hsign, hcs⟩) hbody

end Numeral

namespace Number

/-- A string is read by what is left of it without the blanks at its ends. It denotes a
number exactly where that is a numeral, apart from hexadecimal literals: those with more
than sixteen digits that count are not read, and those of sixteen at most are read also with
a plus sign before the digits. -/
theorem text_denotes_number (s : String) :
    (∃ before after, s.toList = before ++ Text.trim s.toList ++ after ∧
      (∀ c ∈ before ++ after, Text.isBlank c = true) ∧
      Text.StartsBare (Text.trim s.toList) ∧
        Text.StartsBare (Text.trim s.toList).reverse) ∧
    (Numeral (Text.trim s.toList) ∧ (ofText s).isNaN = true ↔
      Numeral.Wide (Text.trim s.toList)) ∧
    (¬ Numeral (Text.trim s.toList) ∧ (ofText s).isNaN = false ↔
      Numeral.Signed (Text.trim s.toList)) := by
  let t := Text.trim s.toList
  have hnumber : (ofText s).isNaN = false ↔ (Numeral t ∧ ¬ Numeral.Wide t) ∨
    Numeral.Signed t :=
    Numeral.isNaN_ofTrimmed t
  refine ⟨Text.exists_trim s.toList, ?_, ?_⟩
  · rw [← Bool.not_eq_false, hnumber]
    constructor
    · rintro ⟨hnumeral, hnan⟩
      by_contra hwide
      exact hnan (.inl ⟨hnumeral, hwide⟩)
    · intro hwide
      refine ⟨hwide.numeral, ?_⟩
      rintro (⟨-, hnot⟩ | hsigned)
      · exact hnot hwide
      · exact hsigned.not_numeral hwide.numeral
  · rw [hnumber]
    constructor
    · rintro ⟨hnumeral, hyes | hsigned⟩
      · exact absurd hyes.1 hnumeral
      · exact hsigned
    · exact fun hsigned => ⟨hsigned.not_numeral, .inr hsigned⟩

/-- A plus sign passes after the mark, and a literal of 65 bits does not. -/
theorem text_departs_from_grammar :
    (¬ Numeral "0x+1f".toList ∧ (ofText "0x+1f").isNaN = false) ∧
      Numeral "0x10000000000000000".toList ∧
        (ofText "0x10000000000000000").isNaN = true := by
  have hsigned : Numeral.Signed "0x+1f".toList := by
    have hdigits : Numeral.HexDigits ['1', 'f'] := by decide
    exact ⟨['0', 'x'], ['1', 'f'], .lower, hdigits, rfl, by decide⟩
  have hdigits : Numeral.HexDigits "10000000000000000".toList := by decide
  exact ⟨⟨hsigned.not_numeral, by decide +kernel⟩, .hexadecimal .lower hdigits,
    by decide +kernel⟩

end Number
end ScriptModel
