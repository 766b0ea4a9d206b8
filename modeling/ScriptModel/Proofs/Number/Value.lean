import Mathlib.Data.Rat.Floor
import Mathlib.Tactic.FieldSimp
import Mathlib.Tactic.Linarith
import ScriptModel.Proofs.Number.Whole

/-!
# The rational number that a double is

The fields of a double say which rational number it stands for. The number of units is that
rational over one common denominator, and so the magnitudes are in the order of the
payloads, two finite doubles that stand for one number differ at most in the sign of a zero,
and cutting off the fraction is what it is for rationals.
-/

namespace ScriptModel

/-- A rational number without its fraction: rounded toward zero. -/
def towardZero (q : ℚ) : ℤ := if 0 ≤ q then ⌊q⌋ else ⌈q⌉

namespace Binary64

/-- The eleven bits below the sign. -/
def exponentField (x : Binary64) : Nat := x.bits.toNat / 2 ^ 52 % 2 ^ 11

/-- The lowest 52 bits. -/
def fractionField (x : Binary64) : Nat := x.bits.toNat % 2 ^ 52

/-- The number that a finite double stands for. With the least exponent field there is no
leading one in front of the fraction. -/
def value (x : Binary64) : ℚ :=
  let sign : ℚ := if x.isNegative then -1 else 1
  if x.exponentField = 0 then sign * (x.fractionField / 2 ^ 52) * 2 ^ (-1022 : ℤ)
  else sign * (1 + x.fractionField / 2 ^ 52) * 2 ^ ((x.exponentField : ℤ) - 1023)

/-- All that a double can stand for. -/
inductive Meaning where
  | nan
  | infinite (negative : Bool)
  | finite (q : ℚ)

/-- What a double stands for. -/
def meaning (x : Binary64) : Meaning :=
  if x.isNaN then .nan else if x.isInfinite then .infinite x.isNegative else .finite x.value

/-! ## Fields and payload -/

theorem payload_div (x : Binary64) : x.payload / 2 ^ 52 = x.exponentField := by
  unfold payload exponentField
  simp only [Nat.pow_eq]
  omega

theorem payload_mod (x : Binary64) : x.payload % 2 ^ 52 = x.fractionField := by
  unfold payload fractionField
  simp only [Nat.pow_eq]
  omega

/-! ## Magnitudes -/

/-- Below the first normal payload, and up to its double, payloads count the units. -/
theorem magnitude_of_le {p : Nat} (h : p ≤ 2 ^ 53) : magnitude p = p := by
  rcases Nat.lt_or_ge p (2 ^ 52) with hlt | hge
  · have hdiv : p / 2 ^ 52 = 0 := Nat.div_eq_of_lt hlt
    unfold magnitude
    simp only [Nat.pow_eq]
    rw [if_pos hdiv, Nat.mod_eq_of_lt hlt]
  · simpa using magnitude_normal (e := 0) hge h

/-- From the first normal payload on there is a significand of 53 bits. -/
theorem exists_normal {p : Nat} (h : 2 ^ 52 ≤ p) :
    ∃ r e, 2 ^ 52 ≤ r ∧ r < 2 ^ 53 ∧ p = e * 2 ^ 52 + r :=
  ⟨2 ^ 52 + p % 2 ^ 52, p / 2 ^ 52 - 1, by omega, by omega, by omega⟩

theorem magnitude_lt_succ (p : Nat) : magnitude p < magnitude (p + 1) := by
  rcases Nat.lt_or_ge p (2 ^ 52) with hlt | hge
  · rw [magnitude_of_le (by omega), magnitude_of_le (by omega)]
    exact Nat.lt_succ_self p
  · obtain ⟨r, e, hlow, hhigh, rfl⟩ := exists_normal hge
    rw [Nat.add_assoc, magnitude_normal hlow hhigh.le, magnitude_normal (by omega) hhigh]
    exact Nat.mul_lt_mul_of_pos_right (Nat.lt_succ_self r) (Nat.two_pow_pos e)

/-- The payload orders the magnitudes. -/
theorem magnitude_strictMono : StrictMono magnitude :=
  strictMono_nat_of_lt_succ magnitude_lt_succ

theorem magnitude_zero : magnitude 0 = 0 := rfl

/-- A magnitude is rounded to itself. -/
theorem roundPayload_magnitude {p : Nat} (h : p < infinityPayload) :
    roundPayload (magnitude p) 1 = p := by
  have hinfinity : infinityPayload = 2047 * 2 ^ 52 := rfl
  rcases Nat.lt_or_ge p (2 ^ 52) with hlt | hge
  · have hlog : p.log2 - 52 = 0 := by
      rcases Nat.eq_zero_or_pos p with rfl | hpos
      · decide
      · have := (Nat.log2_lt hpos.ne').mpr hlt
        omega
    have hround := divRoundEven_mul p Nat.one_pos
    rw [Nat.mul_one] at hround
    rw [magnitude_of_le (by omega), roundPayload]
    simp only [Nat.pow_eq, Nat.div_one, hlog, Nat.pow_zero, Nat.mul_one, Nat.zero_mul,
      Nat.zero_add, hround]
    exact Nat.min_eq_left h.le
  · obtain ⟨r, e, hlow, hhigh, rfl⟩ := exists_normal hge
    rw [magnitude_normal hlow hhigh.le, roundPayload_normal hlow hhigh (by omega)]

/-! ## Value and units -/

/-- The unit as a number. -/
theorem two_zpow_eq : (2 : ℚ) ^ (-1022 : ℤ) / 2 ^ 52 = 1 / unitsPerOne := by
  obtain ⟨n, hn⟩ : ∃ n, 1074 = n := ⟨_, rfl⟩
  rw [unitsPerOne_eq hn, Nat.cast_pow, Nat.cast_ofNat,
    div_eq_div_iff (by positivity) (by positivity), one_mul, ← zpow_natCast (2 : ℚ) n,
    ← zpow_natCast (2 : ℚ) 52, ← zpow_add₀ (by norm_num)]
  congr 1
  omega

/-- The magnitude from the fields. -/
theorem magnitude_payload (x : Binary64) : magnitude x.payload =
    if x.exponentField = 0 then x.fractionField
    else (2 ^ 52 + x.fractionField) * 2 ^ (x.exponentField - 1) := by
  rw [← payload_div, ← payload_mod]
  rfl

/-- The number without its sign is the magnitude over how many units make one. -/
theorem unsigned_eq_magnitude (x : Binary64) :
    (if x.exponentField = 0 then (x.fractionField / 2 ^ 52 : ℚ) * 2 ^ (-1022 : ℤ)
      else (1 + x.fractionField / 2 ^ 52) * 2 ^ ((x.exponentField : ℤ) - 1023)) =
        magnitude x.payload / unitsPerOne := by
  have hunit := two_zpow_eq
  rw [magnitude_payload]
  split
  · rw [div_mul_eq_mul_div, mul_div_assoc, hunit, mul_one_div]
  · rename_i hne
    obtain ⟨k, hk⟩ := Nat.exists_eq_succ_of_ne_zero hne
    have hpow : (2 : ℚ) ^ ((x.exponentField : ℤ) - 1023) = 2 ^ k * 2 ^ (-1022 : ℤ) := by
      rw [← zpow_natCast (2 : ℚ) k, ← zpow_add₀ (by norm_num), hk]
      congr 1
      omega
    rw [hpow, hk, Nat.succ_sub_one]
    generalize (2 : ℚ) ^ (-1022 : ℤ) = least at hunit
    push_cast
    calc (1 + x.fractionField / 2 ^ 52 : ℚ) * (2 ^ k * least)
        = (2 ^ 52 + x.fractionField) * 2 ^ k * (least / 2 ^ 52) := by ring
      _ = (2 ^ 52 + x.fractionField) * 2 ^ k / unitsPerOne := by rw [hunit, mul_one_div]

/-- The number is the count of units over how many make one. -/
theorem value_eq_units (x : Binary64) : x.value = x.units / unitsPerOne := by
  unfold value units
  simp only [mul_assoc, ← mul_ite, unsigned_eq_magnitude]
  cases x.isNegative
  · rw [if_neg Bool.false_ne_true, if_neg Bool.false_ne_true, one_mul, Int.cast_natCast]
  · rw [if_pos rfl, if_pos rfl, neg_one_mul, Int.cast_neg, Int.cast_natCast, neg_div]

/-- Cutting off the fraction is what it is for rational numbers. -/
theorem integerPart_eq_towardZero (x : Binary64) : x.integerPart = towardZero x.value := by
  have hone : (0 : ℚ) < unitsPerOne := Nat.cast_pos.mpr unitsPerOne_pos
  rw [integerPart, value_eq_units, towardZero]
  rcases Int.le_total 0 x.units with hpos | hneg
  · have hsign : (0 : ℚ) ≤ x.units / unitsPerOne := div_nonneg (Int.cast_nonneg hpos) hone.le
    rw [if_pos hsign, Rat.floor_intCast_div_natCast, Int.tdiv_eq_ediv_of_nonneg hpos]
  · obtain ⟨n, hn⟩ := Int.exists_eq_neg_ofNat hneg
    rw [hn]
    rcases Nat.eq_zero_or_pos n with rfl | hn0
    · rw [Nat.cast_zero, neg_zero, Int.cast_zero, zero_div, if_pos le_rfl, Int.floor_zero,
        Int.zero_tdiv]
    · have hsign : ¬ (0 : ℚ) ≤ ((-n : ℤ) : ℚ) / unitsPerOne := by
        rw [not_le]
        refine div_neg_of_neg_of_pos ?_ hone
        exact Int.cast_lt_zero.mpr (by omega)
      rw [if_neg hsign, Int.neg_tdiv, Int.cast_neg, neg_div, Int.ceil_neg,
        Rat.floor_intCast_div_natCast, Int.tdiv_eq_ediv_of_nonneg (Int.natCast_nonneg n)]

/-! ## Which doubles stand for the same -/

/-- Sign and payload decide. -/
theorem eq_iff {x y : Binary64} :
    x = y ↔ x.payload = y.payload ∧ x.isNegative = y.isNegative := by
  constructor
  · rintro rfl
    exact ⟨rfl, rfl⟩
  · rintro ⟨hpayload, hsign⟩
    rw [← ofPayload_payload x, ← ofPayload_payload y, hpayload, hsign]

theorem magnitude_inj {p q : Nat} : magnitude p = magnitude q ↔ p = q :=
  magnitude_strictMono.injective.eq_iff

theorem magnitude_eq_zero {p : Nat} : magnitude p = 0 ↔ p = 0 := by
  rw [← @magnitude_inj p 0, magnitude_zero]

theorem units_eq_iff {x y : Binary64} : x.units = y.units ↔
    x.payload = y.payload ∧ (x.payload = 0 ∨ x.isNegative = y.isNegative) := by
  have hinj := @magnitude_inj x.payload y.payload
  have hx := @magnitude_eq_zero x.payload
  have hy := @magnitude_eq_zero y.payload
  unfold units
  cases x.isNegative <;> cases y.isNegative <;> simp <;> omega

theorem value_eq_iff {x y : Binary64} : x.value = y.value ↔
    x.payload = y.payload ∧ (x.payload = 0 ∨ x.isNegative = y.isNegative) := by
  have hone : (unitsPerOne : ℚ) ≠ 0 := Nat.cast_ne_zero.mpr unitsPerOne_pos.ne'
  rw [value_eq_units, value_eq_units, div_left_inj' hone, Int.cast_inj, units_eq_iff]

/-- Two doubles stand for the same when their bits agree, or only the sign of a zero does
not; the NaNs stand for the same whatever their bits are. -/
theorem meaning_eq_iff {x y : Binary64} : x.meaning = y.meaning ↔
    (x.isNaN = true ∧ y.isNaN = true) ∨
      (x.payload = y.payload ∧ (x.payload = 0 ∨ x.isNegative = y.isNegative)) := by
  have hzero : 0 < infinityPayload := by decide
  simp only [meaning, isNaN, isInfinite, decide_eq_true_iff]
  split_ifs <;> grind [value_eq_iff]

theorem numEq_iff {x y : Binary64} :
    x.numEq y = true ↔ x.isNaN = false ∧ x.meaning = y.meaning := by
  have hbits : x.bits = y.bits ↔ x = y := by
    cases x
    cases y
    simp
  have hnan : x.payload = y.payload → x.isNaN = y.isNaN := fun h => by rw [isNaN, isNaN, h]
  rw [meaning_eq_iff]
  simp only [numEq, isZero, Bool.and_eq_true, Bool.or_eq_true, Bool.not_eq_true',
    beq_iff_eq, hbits, eq_iff, decide_eq_true_iff]
  grind

end Binary64
end ScriptModel
