import ScriptModel.Proofs.Number.Whole

/-!
# Differences of whole numbers

Doubles subtract whole numbers exactly as long as all of them are doubles, which they are up
to 2^53. A difference that is out of that range is negative here, and what is kept of it is
its sign.
-/

namespace ScriptModel
namespace Binary64

/-! ## Negation -/

theorem payload_negate (x : Binary64) : x.negate.payload = x.payload :=
  payload_ofPayload x.payload_lt _

theorem isNegative_negate (x : Binary64) : x.negate.isNegative = !x.isNegative :=
  isNegative_ofPayload x.payload_lt _

theorem units_negate (x : Binary64) : x.negate.units = -x.units := by
  rw [units, units, payload_negate, isNegative_negate]
  cases x.isNegative <;> simp

theorem isFinite_negate (x : Binary64) : x.negate.isFinite = x.isFinite := by
  rw [isFinite, isFinite, payload_negate]

theorem isNaN_of_isFinite {x : Binary64} (h : x.isFinite = true) : x.isNaN = false := by
  have hlt : x.payload < infinityPayload := by simpa [isFinite] using h
  simpa [isNaN] using hlt.le

/-- The sum of finite doubles is the exact sum, rounded. -/
theorem add_of_isFinite {x y : Binary64} (hx : x.isFinite = true) (hy : y.isFinite = true) :
    x.add y = if x.units + y.units = 0 then ofPayload (x.isNegative && y.isNegative) 0
      else ofUnits (x.units + y.units) := by
  unfold add
  simp only [isNaN_of_isFinite hx, isNaN_of_isFinite hy, isInfinite_of_isFinite hx,
    isInfinite_of_isFinite hy, Bool.false_or, Bool.false_eq_true, if_false]

/-! ## Whole numbers -/

theorem ofInt_zero : ofInt 0 = zero := by
  rw [ofInt, Int.zero_mul]
  decide

/-- A whole number has no part to cut off. -/
theorem truncate_ofInt {i : Int} (hi : i.natAbs ≤ 2 ^ 53) :
    (ofInt i).truncate = ofInt i := by
  rw [truncate, if_pos (isFinite_ofInt hi), integerPart_ofInt hi, ← payload_ofInt,
    ofPayload_payload]

theorem sub_ofInt {i : Int} {k : Nat} (hi : i.natAbs ≤ 2 ^ 53) (hk : k ≤ 2 ^ 53) :
    (ofInt i).sub (ofInt k) = ofInt (i - k) := by
  have hk' : (k : Int).natAbs ≤ 2 ^ 53 := hk
  have hfinite := isFinite_ofInt hk'
  have hunits : (ofInt i).units + (ofInt k).negate.units = (i - k) * unitsPerOne := by
    rw [units_negate, units_ofInt hi, units_ofInt hk', Int.sub_mul, Int.sub_eq_add_neg]
  rw [sub, isNaN_of_isFinite hfinite, if_neg Bool.false_ne_true,
    add_of_isFinite (isFinite_ofInt hi) ((isFinite_negate _).trans hfinite), hunits]
  by_cases heq : i = k
  · -- Equal numbers differ by the positive zero, since neither of them is negative.
    subst heq
    rw [Int.sub_self, Int.zero_mul, if_pos rfl, isNegative_ofInt,
      decide_eq_false (by omega), ofInt_zero]
    rfl
  · have hne : (i - k) * unitsPerOne ≠ 0 :=
      Int.mul_ne_zero (by omega) (Int.natCast_pos.mpr unitsPerOne_pos).ne'
    rw [if_neg hne]
    rfl

/-- What is kept is the number, or zero where it is negative. -/
theorem clampBelow_ofInt {i : Int} (hi : i ≤ 2 ^ 53) :
    (ofInt i).clampBelow = ofInt (max 0 i) := by
  unfold clampBelow
  rw [isNegative_ofInt]
  rcases lt_or_ge i 0 with hneg | hpos
  · rw [decide_eq_true hneg, Bool.or_true, if_pos rfl, max_eq_left hneg.le, ofInt_zero]
  · have hfinite := isFinite_ofInt (i := i) (by omega)
    have hneg : decide (i < 0) = false := decide_eq_false (by omega)
    rw [max_eq_right hpos, isNaN_of_isFinite hfinite, hneg, Bool.or_self]
    exact if_neg Bool.false_ne_true

end Binary64

namespace Number

/-- A computed double that is a whole number becomes an integer again. -/
theorem ofBinary64_ofInt {i : Int} (hpos : 0 ≤ i) (hi : i ≤ 2 ^ 53) :
    ofBinary64 (Binary64.ofInt i) = integer (Int64.ofInt i) := by
  have hle : i.natAbs ≤ 2 ^ 53 := by omega
  have hfinite := Binary64.isFinite_ofInt hle
  have hintegral : (Binary64.ofInt i).isIntegral = true := by
    rw [Binary64.isIntegral, Binary64.units_ofInt hle, decide_eq_true_iff]
    exact Int.mul_emod_left _ _
  have hlow : -Int.pow 2 63 ≤ i := by
    show -9223372036854775808 ≤ i
    omega
  have hhigh : i < Int.pow 2 63 := by
    show i < 9223372036854775808
    omega
  have hsign : (Binary64.ofInt i).isNegative = false := by
    rw [Binary64.isNegative_ofInt]
    exact decide_eq_false (by omega)
  unfold ofBinary64
  rw [Binary64.isNaN_of_isFinite hfinite, Binary64.isInfinite_of_isFinite hfinite,
    hintegral,
    Binary64.integerPart_ofInt hle, hsign, decide_eq_true hlow, decide_eq_true hhigh]
  simp

/-- The integer part of an integer is its double. -/
theorem integral_integer {i : Int64} (hi : i.toInt.natAbs ≤ 2 ^ 53) :
    (integer i).integral = Binary64.ofInt i.toInt := by
  have hnan : (integer i).isNaN = false :=
    Binary64.isNaN_of_isFinite (Binary64.isFinite_ofInt hi)
  rw [integral, hnan, if_neg Bool.false_ne_true]
  exact Binary64.truncate_ofInt hi

end Number
end ScriptModel
