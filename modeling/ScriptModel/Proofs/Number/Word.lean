import Mathlib.Data.Int.ModEq
import ScriptModel.Operation.Conversion
import ScriptModel.Proofs.Number.Difference
import ScriptModel.Proofs.Number.Value

/-!
# Words

A number becomes a word of 32 bits by cutting off its fraction and taking the remainder
modulo 2^32, whatever its representation and however large it is. A double takes these steps
itself: first the truncation, then a remainder with the sign of the dividend, then the shift
of a negative one. Every result on the way is a double, so nothing is rounded.
-/

namespace ScriptModel

namespace Binary64

/-! ## Magnitudes that need no rounding -/

/-- The number of units is the magnitude of a finite double. -/
def Exact (n : Nat) : Prop := ∃ p, p < infinityPayload ∧ magnitude p = n

theorem exact_magnitude {x : Binary64} (h : x.isFinite = true) :
    Exact (magnitude x.payload) :=
  ⟨x.payload, by simpa [isFinite] using h, rfl⟩

theorem exact_whole {m : Nat} (h : m ≤ 2 ^ 53) : Exact (m * unitsPerOne) :=
  ⟨_, magnitude_roundPayload h⟩

/-- From 2^53 on a double has no fraction. -/
theorem unitsPerOne_dvd_magnitude {p : Nat} (h : 2 ^ 53 ≤ magnitude p / unitsPerOne) :
    unitsPerOne ∣ magnitude p := by
  obtain ⟨k, hone⟩ : ∃ k, 1074 = k := ⟨_, rfl⟩
  rw [unitsPerOne_eq hone, Nat.le_div_iff_mul_le (Nat.two_pow_pos k)] at h
  rw [unitsPerOne_eq hone]
  rcases Nat.lt_or_ge p (2 ^ 52) with hsmall | hnormal
  · have hpos := Nat.two_pow_pos k
    rw [magnitude_of_le (by omega)] at h
    have := Nat.le_mul_of_pos_right (2 ^ 53) hpos
    omega
  · obtain ⟨r, e, hlow, hhigh, rfl⟩ := exists_normal hnormal
    rw [magnitude_normal hlow hhigh.le] at h ⊢
    have hk : k ≤ e := by
      by_contra hlt
      have hpow : 2 ^ e ≤ 2 ^ k := Nat.pow_le_pow_right (by omega) (by omega)
      have hless : r * 2 ^ e < 2 ^ 53 * 2 ^ k :=
        Nat.mul_lt_mul_of_lt_of_le hhigh hpow (Nat.two_pow_pos k)
      omega
    exact Dvd.dvd.mul_left (Nat.pow_dvd_pow 2 hk) r

/-- What is left of a double without its fraction is a double: from 2^53 on there is no
fraction to cut off, and below that every whole number is one. -/
theorem Exact.truncate {n : Nat} (h : Exact n) : Exact (n / unitsPerOne * unitsPerOne) := by
  rcases Nat.lt_or_ge (n / unitsPerOne) (2 ^ 53) with hlt | hge
  · exact exact_whole hlt.le
  · obtain ⟨p, hp, rfl⟩ := h
    rw [Nat.div_mul_cancel (unitsPerOne_dvd_magnitude hge)]
    exact ⟨p, hp, rfl⟩

/-! ## Whole numbers as doubles -/

/-- A whole number with a sign. -/
def signed (negative : Bool) (m : Nat) : Int := if negative then -(m : Int) else m

/-- Where there is a remainder, that of the negative number is the rest of the divisor. -/
theorem neg_emod_of_ne {m k : Nat} (hk : 0 < k) (hne : m % k ≠ 0) :
    -(m : Int) % k = (k - m % k : Nat) := by
  have hmod : m % k < k := Nat.mod_lt m hk
  have hsplit : -(m : Int) = (k - m % k : Nat) + k * (-(m / k : Nat) - 1) := by
    have hdiv := congrArg (Nat.cast (R := Int)) (Nat.div_add_mod m k)
    push_cast [hmod.le] at hdiv ⊢
    linarith
  rw [hsplit, Int.add_mul_emod_self_left, Int.emod_eq_of_lt (by omega) (by omega)]

theorem signed_emod {negative : Bool} {m k : Nat} (h : negative = true → m % k = 0) :
    signed negative m % k = (m % k : Nat) := by
  cases negative with
  | false => exact (Int.natCast_emod m k).symm
  | true =>
    have hdvd : (k : Int) ∣ -(m : Int) :=
      Int.dvd_neg.mpr (Int.natCast_dvd_natCast.mpr (Nat.dvd_of_mod_eq_zero (h rfl)))
    rw [h rfl]
    exact Int.emod_eq_zero_of_dvd hdvd

/-- The double is a whole number, given by its sign and its magnitude. -/
structure IsWhole (x : Binary64) (negative : Bool) (m : Nat) : Prop where
  finite : x.isFinite = true
  isNegative_eq : x.isNegative = negative
  magnitude_eq : magnitude x.payload = m * unitsPerOne

theorem isWhole_ofPayload {m : Nat} (h : Exact (m * unitsPerOne)) (negative : Bool) :
    (ofPayload negative (roundPayload (m * unitsPerOne) 1)).IsWhole negative m := by
  obtain ⟨p, hp, hm⟩ := h
  have hlt : p < Nat.pow 2 63 := hp.trans (by decide)
  rw [← hm, roundPayload_magnitude hp]
  exact ⟨by simpa [isFinite,
    payload_ofPayload hlt] using hp, isNegative_ofPayload hlt negative,
    by rw [payload_ofPayload hlt, hm]⟩

theorem isWhole_ofInt {m : Nat} (h : m ≤ 2 ^ 53) : (ofInt m).IsWhole false m :=
  ⟨isFinite_ofInt h, (isNegative_ofInt m).trans (decide_eq_false (by omega)),
    magnitude_ofInt h⟩

theorem units_eq_signed (x : Binary64) :
    x.units = signed x.isNegative (magnitude x.payload) := rfl

theorem integerPart_eq_signed (x : Binary64) :
    x.integerPart = signed x.isNegative (magnitude x.payload / unitsPerOne) := by
  rw [integerPart, units_eq_signed]
  unfold signed
  split
  · rw [Int.neg_tdiv]
    rfl
  · rfl

namespace IsWhole

variable {x y : Binary64} {negative sign : Bool} {m k : Nat}

theorem integerPart (h : x.IsWhole negative m) : x.integerPart = signed negative m := by
  rw [integerPart_eq_signed, h.isNegative_eq, h.magnitude_eq,
    Nat.mul_div_cancel m unitsPerOne_pos]

theorem isZero_iff (h : x.IsWhole negative m) : x.isZero = true ↔ m = 0 := by
  have hzero := @magnitude_eq_zero x.payload
  rw [h.magnitude_eq, Nat.mul_eq_zero, or_iff_left unitsPerOne_pos.ne'] at hzero
  rw [isZero, decide_eq_true_iff, hzero]

theorem isBelowZero_iff (h : x.IsWhole negative m) :
    x.isBelowZero = true ↔ negative = true ∧ m ≠ 0 := by
  rw [isBelowZero, isNaN_of_isFinite h.finite, h.isNegative_eq]
  simp only [Bool.not_false, Bool.and_true, Bool.and_eq_true, Bool.not_eq_true',
    ← Bool.not_eq_true, h.isZero_iff, ne_eq]

/-- The remainder of whole numbers is exact. -/
theorem rem (hx : x.IsWhole negative m) (hy : y.IsWhole sign k) (hk0 : 0 < k)
    (hk : k ≤ 2 ^ 53) : (x.rem y).IsWhole negative (m % k) := by
  have hzero : y.isZero = false := by
    rw [← Bool.not_eq_true, hy.isZero_iff]
    exact hk0.ne'
  unfold Binary64.rem
  simp only [isNaN_of_isFinite hx.finite, isNaN_of_isFinite hy.finite,
    isInfinite_of_isFinite hx.finite, isInfinite_of_isFinite hy.finite, hzero, Bool.or_self,
    Bool.false_eq_true, if_false]
  rw [hx.magnitude_eq, hy.magnitude_eq, Nat.mul_mod_mul_right, hx.isNegative_eq]
  have hmod : m % k < k := Nat.mod_lt m hk0
  exact isWhole_ofPayload (exact_whole (by omega)) negative

/-- A sum that is not negative and below 2^53 is exact. -/
theorem add (hx : x.IsWhole negative m) (hy : y.IsWhole sign k) {sum : Nat}
    (hsum : signed negative m + signed sign k = sum) (hpos : 0 < sum)
    (hbound : sum ≤ 2 ^ 53) : (x.add y).IsWhole false sum := by
  have hunits : x.units + y.units = sum * unitsPerOne := by
    rw [← hsum, Int.add_mul, units_eq_signed, units_eq_signed, hx.isNegative_eq,
      hy.isNegative_eq, hx.magnitude_eq, hy.magnitude_eq]
    unfold signed
    split_ifs <;> push_cast <;> ring
  have hne : (sum * unitsPerOne : Int) ≠ 0 :=
    Int.mul_ne_zero (by omega) (Int.natCast_pos.mpr unitsPerOne_pos).ne'
  rw [add_of_isFinite hx.finite hy.finite, hunits, if_neg hne]
  exact isWhole_ofInt hbound

/-- Without its sign a whole number stays one. -/
theorem abs (hx : x.IsWhole negative m) : x.abs.IsWhole false m := by
  have hpayload : x.abs.payload = x.payload := payload_ofPayload x.payload_lt false
  refine ⟨?_, isNegative_ofPayload x.payload_lt false, ?_⟩
  · rw [isFinite, hpayload]
    exact hx.finite
  · rw [hpayload]
    exact hx.magnitude_eq

/-- The remainder that is not negative is exact, too, and what is shifted to get it. -/
theorem remEuclid (hx : x.IsWhole negative m) (hy : y.IsWhole false k) (hk0 : 0 < k)
    (hk : k ≤ 2 ^ 53) : ∃ sign rest, (x.remEuclid y).IsWhole sign rest ∧
      (sign = true → rest = 0) ∧ (rest : Int) = signed negative m % k := by
  have hrem := hx.rem hy hk0 hk
  have hmod : m % k < k := Nat.mod_lt m hk0
  unfold Binary64.remEuclid
  dsimp only
  split
  · rename_i hbelow
    obtain ⟨rfl, hne⟩ := hrem.isBelowZero_iff.mp hbelow
    have hsum : signed true (m % k) + signed false k = (k - m % k : Nat) := by
      show -((m % k : Nat) : Int) + k = _
      omega
    exact ⟨false, k - m % k, hrem.add hy.abs hsum (by omega) (by omega),
      fun h => absurd h Bool.false_ne_true, (neg_emod_of_ne hk0 hne).symm⟩
  · rename_i hbelow
    have hzero (hneg : negative = true) : m % k = 0 := by
      by_contra hne
      exact hbelow (hrem.isBelowZero_iff.mpr ⟨hneg, hne⟩)
    exact ⟨negative, m % k, hrem, hzero, (signed_emod hzero).symm⟩

theorem saturate (h : x.IsWhole negative m) (hsign : negative = true → m = 0)
    (hm : m < 2 ^ 32) : x.saturate = UInt32.ofNat m := by
  unfold Binary64.saturate
  rw [isNaN_of_isFinite h.finite, isInfinite_of_isFinite h.finite, h.isNegative_eq,
    h.integerPart]
  cases negative with
  | true =>
    rw [hsign rfl]
    rfl
  | false =>
    have hint : signed false m = m := rfl
    have hword : Int.pow 2 32 = 4294967296 := rfl
    rw [hint, hword, decide_eq_false (by omega), Int.toNat_natCast]
    rfl

end IsWhole

/-- Truncation is exact. -/
theorem isWhole_truncate {x : Binary64} (h : x.isFinite = true) :
    x.truncate.IsWhole x.isNegative (magnitude x.payload / unitsPerOne) := by
  have hparts : x.integerPart.natAbs = magnitude x.payload / unitsPerOne := by
    rw [integerPart_eq_signed]
    unfold signed
    split
    · rw [Int.natAbs_neg, Int.natAbs_natCast]
    · rw [Int.natAbs_natCast]
  rw [Binary64.truncate, if_pos h, hparts]
  exact isWhole_ofPayload (exact_magnitude h).truncate x.isNegative

/-- The operations of doubles give the remainder of the integer part. -/
theorem saturate_remEuclid {x : Binary64} (h : x.isFinite = true) :
    (x.truncate.remEuclid (ofInt (Int.pow 2 32))).saturate =
      UInt32.ofNat (x.integerPart % Int.pow 2 32).toNat := by
  have hone : (ofInt (Int.pow 2 32)).IsWhole false (2 ^ 32) :=
    isWhole_ofInt (m := 2 ^ 32) (by decide)
  obtain ⟨sign, rest, hrest, hsign, heq⟩ :=
    (isWhole_truncate h).remEuclid hone (by decide) (by decide)
  rw [← integerPart_eq_signed] at heq
  have hmod : (rest : Int) = x.integerPart % Int.pow 2 32 := heq
  rw [hrest.saturate hsign (by omega), ← hmod, Int.toNat_natCast]

end Binary64

namespace Number

theorem toWord_double {x : Binary64} (h : x.isFinite = true) :
    (double x).toWord = UInt32.ofNat (x.integerPart % Int.pow 2 32).toNat := by
  rw [toWord, if_pos h, Binary64.saturate_remEuclid h]

theorem toWord_of_not_finite {x : Binary64} (h : x.isFinite = false) :
    (double x).toWord = 0 := by
  rw [toWord, if_neg (ne_true_of_eq_false h)]

/-- An integer that is a double becomes the word of that double. -/
theorem toWord_of_isSafe {n : Number} (h : n.isSafe = true) :
    n.toWord = (double n.toBinary64).toWord := by
  cases n with
  | integer i =>
    have hi : i.toInt.natAbs < 2 ^ 53 := by simpa [isSafe] using h
    rw [toBinary64, toWord_double (Binary64.isFinite_ofInt hi.le),
      Binary64.integerPart_ofInt hi.le, toWord]
  | double x => rfl
  | nan => exact (toWord_of_not_finite (by decide)).symm
  | infinity => exact (toWord_of_not_finite (by decide)).symm
  | negativeInfinity => exact (toWord_of_not_finite (by decide)).symm

/-- Where the representation does not show, the same number has the same text and the same
word. -/
theorem reads_of_same {m n : Number} (hm : m.isSafe = true) (hn : n.isSafe = true)
    (h : m.same n = true) : m.text = n.text ∧ m.toWord = n.toWord := by
  rw [text_of_isSafe hm, text_of_isSafe hn, toWord_of_isSafe hm, toWord_of_isSafe hn]
  rcases same_iff.mp h with heq | ⟨hmn, hnn⟩
  · rw [heq]
    exact ⟨rfl, rfl⟩
  · rw [Binary64.name_of_isNaN hmn, Binary64.name_of_isNaN hnn,
      toWord_of_not_finite (Binary64.isFinite_of_isNaN hmn),
      toWord_of_not_finite (Binary64.isFinite_of_isNaN hnn)]
    exact ⟨rfl, rfl⟩

/-! ## The residue -/

/-- The word is the one between zero and 2^32 that is congruent to the integer. -/
def IsResidue (w : UInt32) (z : ℤ) : Prop :=
  ∀ r : ℤ, r = w.toNat ↔ 0 ≤ r ∧ r < 2 ^ 32 ∧ r ≡ z [ZMOD 2 ^ 32]

theorem isResidue_ofNat (z : ℤ) : IsResidue (UInt32.ofNat (z % Int.pow 2 32).toNat) z := by
  intro r
  have hpow : Int.pow 2 32 = 4294967296 := rfl
  have hword : ((UInt32.ofNat (z % Int.pow 2 32).toNat).toNat : ℤ) = z % 4294967296 := by
    rw [UInt32.toNat_ofNat', hpow]
    omega
  rw [hword]
  unfold Int.ModEq
  omega

theorem IsResidue.unique {w w' : UInt32} {z : ℤ} (h : IsResidue w z) (h' : IsResidue w' z) :
    w = w' := by
  have hnat : (w.toNat : ℤ) = w'.toNat := (h' w.toNat).mpr ((h w.toNat).mp rfl)
  exact UInt32.toNat_inj.mp (Int.natCast_inj.mp hnat)

/-- The rational number that a number is, whatever its representation; an integer is not
rounded. -/
def rational? : Number → Option ℚ
  | integer i => some i.toInt
  | double x => if x.isFinite then some x.value else none
  | nan => none
  | infinity => none
  | negativeInfinity => none

theorem towardZero_intCast (z : ℤ) : towardZero z = z := by
  unfold towardZero
  split
  · exact Int.floor_intCast z
  · exact Int.ceil_intCast z

theorem isResidue_double {x : Binary64} (h : x.isFinite = true) :
    IsResidue (double x).toWord (towardZero x.value) := by
  rw [toWord_double h, ← Binary64.integerPart_eq_towardZero]
  exact isResidue_ofNat x.integerPart

theorem isResidue_of_rational {n : Number} {q : ℚ} (h : n.rational? = some q) :
    IsResidue n.toWord (towardZero q) := by
  cases n with
  | integer i =>
    cases h
    rw [towardZero_intCast]
    exact isResidue_ofNat i.toInt
  | double x =>
    rw [rational?] at h
    split at h
    · rename_i hfinite
      cases h
      exact isResidue_double hfinite
    · cases h
  | nan => cases h
  | infinity => cases h
  | negativeInfinity => cases h

/-- An integer becomes the word that is congruent to it modulo 2^32, and so does a finite
double with the number that its bits stand for, cut off toward zero; everything else becomes
zero. Numbers that are the same rational number in different representations become the same
word. A double gets there by its own operations: truncation, the remainder of a division by
2^32, and a shift where that is negative. Nothing runs where a number is converted, and
nothing changes. -/
theorem toWord_is_residue :
    (∀ i : Int64, IsResidue (integer i).toWord i.toInt) ∧
    (∀ x : Binary64, x.isFinite = true → IsResidue (double x).toWord (towardZero x.value)) ∧
    (∀ x : Binary64, x.isFinite = false → (double x).toWord = 0) ∧
    (∀ n ∈ [nan, infinity, negativeInfinity], n.toWord = 0) ∧
    (∀ m n : Number, ∀ q, m.rational? = some q → n.rational? = some q → m.toWord = n.toWord) ∧
    (∀ x : Binary64, (double x).toWord =
      if x.isFinite then (x.truncate.remEuclid (.ofInt (2 ^ 32))).saturate else 0) ∧
    ∀ (inv : Invoker) (n : Number) (s : Machine),
      inv.toWord (.number n) s = (.done n.toWord, s) := by
  exact ⟨fun i => isResidue_ofNat i.toInt, fun x => isResidue_double,
    fun x => toWord_of_not_finite, by decide,
    fun m n q hm hn => (isResidue_of_rational hm).unique (isResidue_of_rational hn),
    fun x => rfl, fun inv n s => rfl⟩

end Number
end ScriptModel
