import ScriptModel.Number.Binary64

/-!
# Numbers

A number is an integer of 64 bits, a double kept as it is, or one of the three special
values. The representations overlap: `toBinary64` says which double each denotes, and every
comparison goes through it. `ofBinary64` chooses the representation of a computed double.
-/

namespace ScriptModel

/-- A number in one of its representations (`JsNumberType`). -/
inductive Number where
  | integer (i : Int64)
  | double (x : Binary64)
  | nan
  | infinity
  | negativeInfinity
  deriving DecidableEq, Inhabited

namespace Number

/-- The double that a number denotes (`as_f64`); an integer is rounded to the nearest
one. -/
def toBinary64 : Number → Binary64
  | integer i => Binary64.ofInt i.toInt
  | double x => x
  | nan => Binary64.nan
  | infinity => Binary64.infinity
  | negativeInfinity => Binary64.negativeInfinity

/-- The representation of a computed double (`from_f64`): a whole number from -2^63 up to
2^63, which is left out, becomes an integer, except negative zero. -/
def ofBinary64 (x : Binary64) : Number :=
  if x.isNaN then nan
  else if x.isInfinite then (if x.isNegative then negativeInfinity else infinity)
  else if x.isIntegral && decide (-Int.pow 2 63 ≤ x.integerPart)
      && decide (x.integerPart < Int.pow 2 63) && !(x.isZero && x.isNegative) then
    integer (Int64.ofInt x.integerPart)
  else double x

/-- The number denotes a NaN. -/
def isNaN (n : Number) : Bool := n.toBinary64.isNaN

/-- Identity of numbers (`same_number`, when it is not strict): all NaNs are one, and the
two zeros are apart. -/
def same (m n : Number) : Bool :=
  (m.toBinary64.isNaN && n.toBinary64.isNaN) ||
    (!m.toBinary64.isNaN && !n.toBinary64.isNaN && m.toBinary64.bits == n.toBinary64.bits)

/-- Numeric equality (`same_number`, when it is strict): a NaN equals nothing, and the two
zeros are equal. -/
def equal (m n : Number) : Bool := m.toBinary64.numEq n.toBinary64

/-- Equality of representations; doubles compare numerically. -/
def sameForm : Number → Number → Bool
  | integer i, integer j => i == j
  | double x, double y => x.numEq y
  | nan, nan => true
  | infinity, infinity => true
  | negativeInfinity, negativeInfinity => true
  | _, _ => false

/-- The number is neither zero nor NaN. -/
def isTruthy (n : Number) : Bool := !(n.toBinary64.isNaN || n.toBinary64.isZero)

/-- The integer part, as a double (what `to_integer` makes of a number); a NaN has integer
part zero. -/
def integral (n : Number) : Binary64 :=
  if n.isNaN then Binary64.zero else n.toBinary64.truncate

/-- The integer part modulo 2^32 (what `to_uint32` makes of a number); NaN and the
infinities give zero. A double takes each step as a double: the truncation, the remainder,
the cast. -/
def toWord : Number → UInt32
  | integer i => UInt32.ofNat (i.toInt % Int.pow 2 32).toNat
  | double x =>
    if x.isFinite then (x.truncate.remEuclid (Binary64.ofInt (Int.pow 2 32))).saturate else 0
  | nan => 0
  | infinity => 0
  | negativeInfinity => 0

end Number
end ScriptModel
