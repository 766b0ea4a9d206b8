/-!
# Binary64: doubles as exact integers of one unit

A double is its 64 bits. Every finite double is a whole number of units of 2^-1074, so its
value is the integer `units x`, and an operation is: the exact integer (or quotient) that
the operation means, rounded once. `roundPayload` is that one rounding, to nearest with ties
to even; addition, subtraction, truncation, the reading of integers and of decimal literals
all go through it.

The bits below the sign are called the payload. Read as a natural number the payload orders
the magnitudes, and a significand `r` of exponent field `e + 1` has payload `e * 2^52 + r`
(the leading bit of `r` carries into the field), which is why rounding needs no separate
case for subnormals or for a significand that rounds up to the next power of two.
-/

namespace ScriptModel

/-- A double, given by its bits. -/
structure Binary64 where
  bits : UInt64
  deriving DecidableEq, Inhabited

namespace Binary64

/-- The payload of the infinities; payloads above it are NaNs. -/
def infinityPayload : Nat := 2047 * Nat.pow 2 52

/-- How many units make one. -/
def unitsPerOne : Nat := Nat.pow 2 1074

/-- The bits below the sign, as a number. -/
def payload (x : Binary64) : Nat := x.bits.toNat % Nat.pow 2 63

/-- The sign bit. -/
def isNegative (x : Binary64) : Bool := decide (Nat.pow 2 63 ≤ x.bits.toNat)

/-- The double with the given sign and payload. -/
def ofPayload (negative : Bool) (p : Nat) : Binary64 :=
  ⟨UInt64.ofNat ((if negative then Nat.pow 2 63 else 0) + p)⟩

def zero : Binary64 := ofPayload false 0
def infinity : Binary64 := ofPayload false infinityPayload
def negativeInfinity : Binary64 := ofPayload true infinityPayload
def nan : Binary64 := ofPayload false (infinityPayload + Nat.pow 2 51)

def isNaN (x : Binary64) : Bool := decide (infinityPayload < x.payload)
def isInfinite (x : Binary64) : Bool := decide (x.payload = infinityPayload)
def isFinite (x : Binary64) : Bool := decide (x.payload < infinityPayload)

/-- Either zero. -/
def isZero (x : Binary64) : Bool := decide (x.payload = 0)

/-- The magnitude, in units, that a payload stands for. -/
def magnitude (p : Nat) : Nat :=
  if p / Nat.pow 2 52 = 0 then p % Nat.pow 2 52
  else (Nat.pow 2 52 + p % Nat.pow 2 52) * Nat.pow 2 (p / Nat.pow 2 52 - 1)

/-- The exact value of a finite double, in units. -/
def units (x : Binary64) : Int :=
  if x.isNegative then -(magnitude x.payload : Int) else (magnitude x.payload : Int)

/-- The integer nearest to `num / den`, an even one when two are equally near. -/
def divRoundEven (num den : Nat) : Nat :=
  let q := num / den
  let r := num % den
  if 2 * r < den then q else if den < 2 * r then q + 1 else q + q % 2

/-- The payload nearest to `num / den` units: the quotient is cut to 53 significant bits,
and what does not fit below the infinities is infinite. -/
def roundPayload (num den : Nat) : Nat :=
  let e := (num / den).log2 - 52
  min (e * Nat.pow 2 52 + divRoundEven num (den * Nat.pow 2 e)) infinityPayload

/-- The double nearest to a whole number of units. -/
def ofUnits (u : Int) : Binary64 := ofPayload (decide (u < 0)) (roundPayload u.natAbs 1)

/-- The double nearest to an integer. -/
def ofInt (i : Int) : Binary64 := ofUnits (i * unitsPerOne)

/-- The integer part of a finite double: its value truncated toward zero. -/
def integerPart (x : Binary64) : Int := x.units.tdiv unitsPerOne

/-- Whether a finite double is a whole number. -/
def isIntegral (x : Binary64) : Bool := decide (x.units % unitsPerOne = 0)

/-- Truncation toward zero (`trunc`); the sign survives even where the result is zero. -/
def truncate (x : Binary64) : Binary64 :=
  if x.isFinite then
    ofPayload x.isNegative (roundPayload (x.integerPart.natAbs * unitsPerOne) 1)
  else x

def negate (x : Binary64) : Binary64 := ofPayload (!x.isNegative) x.payload

/-- The sum: exact on the units, rounded once. An exact zero is negative only when both
terms are. -/
def add (x y : Binary64) : Binary64 :=
  if x.isNaN || y.isNaN then nan
  else if x.isInfinite then
    if y.isInfinite && x.isNegative != y.isNegative then nan else x
  else if y.isInfinite then y
  else if x.units + y.units = 0 then ofPayload (x.isNegative && y.isNegative) 0
  else ofUnits (x.units + y.units)

def sub (x y : Binary64) : Binary64 := if y.isNaN then nan else add x y.negate

/-- The larger of the value and zero (`max`). The positive zero is the larger of the two,
and a NaN counts for nothing. -/
def clampBelow (x : Binary64) : Binary64 := if x.isNaN || x.isNegative then zero else x

/-- The double without its sign. -/
def abs (x : Binary64) : Binary64 := ofPayload false x.payload

/-- The remainder of a division that is cut toward zero. It has the sign of the dividend,
also where it is zero. -/
def rem (x y : Binary64) : Binary64 :=
  if x.isNaN || y.isNaN || x.isInfinite || y.isZero then nan
  else if y.isInfinite then x
  else ofPayload x.isNegative (roundPayload (magnitude x.payload % magnitude y.payload) 1)

/-- The double is less than zero. -/
def isBelowZero (x : Binary64) : Bool := x.isNegative && !x.isZero && !x.isNaN

/-- The remainder that is not negative (`rem_euclid`): one that is gets the divisor
added. -/
def remEuclid (x y : Binary64) : Binary64 :=
  let r := x.rem y
  if r.isBelowZero then r.add y.abs else r

/-- The integer part as a word of 32 bits, or the nearest word where it is out of range; of
a NaN, zero. -/
def saturate (x : Binary64) : UInt32 :=
  if x.isNaN || x.isNegative then 0
  else if x.isInfinite || decide (Int.pow 2 32 ≤ x.integerPart) then
    UInt32.ofNat (Nat.pow 2 32 - 1)
  else UInt32.ofNat x.integerPart.toNat

/-- Equality of numbers: a NaN equals nothing and the two zeros are equal. -/
def numEq (x y : Binary64) : Bool :=
  !x.isNaN && !y.isNaN && ((x.isZero && y.isZero) || x.bits == y.bits)

/-! ## Sign and payload -/

/-- The weight of the sign bit, written out. -/
theorem pow_two_63 : Nat.pow 2 63 = 9223372036854775808 := rfl

theorem payload_lt (x : Binary64) : x.payload < Nat.pow 2 63 := Nat.mod_lt _ (by decide)

theorem toNat_ofPayload {p : Nat} (h : p < Nat.pow 2 63) (negative : Bool) :
    (ofPayload negative p).bits.toNat = (if negative then Nat.pow 2 63 else 0) + p := by
  simp only [ofPayload, UInt64.toNat_ofNat']
  apply Nat.mod_eq_of_lt
  have hweight := pow_two_63
  split <;> omega

theorem payload_ofPayload {p : Nat} (h : p < Nat.pow 2 63) (negative : Bool) :
    (ofPayload negative p).payload = p := by
  rw [payload, toNat_ofPayload h]
  rw [pow_two_63] at *
  split <;> omega

theorem isNegative_ofPayload {p : Nat} (h : p < Nat.pow 2 63) (negative : Bool) :
    (ofPayload negative p).isNegative = negative := by
  rw [isNegative, toNat_ofPayload h]
  cases negative
  · simpa using h
  · simp

/-- Sign and payload are all there is to a double. -/
theorem ofPayload_payload (x : Binary64) : ofPayload x.isNegative x.payload = x := by
  cases x with
  | mk b =>
    have hlt := b.toNat_lt
    simp only [ofPayload, isNegative, payload, mk.injEq]
    apply UInt64.toNat_inj.mp
    rw [UInt64.toNat_ofNat']
    simp only [decide_eq_true_eq, pow_two_63]
    split <;> omega

theorem roundPayload_le (num den : Nat) : roundPayload num den ≤ infinityPayload :=
  Nat.min_le_right _ _

/-- A quotient without remainder needs no rounding. -/
theorem divRoundEven_mul (n : Nat) {d : Nat} (h : 0 < d) : divRoundEven (n * d) d = n := by
  simp [divRoundEven, Nat.mul_div_cancel n h, h]

end Binary64
end ScriptModel
