import ScriptModel.Number.Basic
import ScriptModel.Text.Blank

/-!
# Numeric strings

`Number.ofText` is the number that a string denotes when a script uses it as one: blanks at
the ends do not count, nothing at all is zero, and text that is no number is NaN.
Hexadecimal literals hold what 64 bits can hold; decimal literals are rounded once, from
their exact value.
-/

namespace ScriptModel

/-- A decimal literal cut into its parts. -/
structure DecimalLiteral where
  negative : Bool
  whole : List Char
  fraction : List Char
  exponent : Int
  deriving DecidableEq

namespace DecimalLiteral

/-- An optional sign, and what follows it. -/
def readSign : List Char → Bool × List Char
  | '-' :: cs => (true, cs)
  | '+' :: cs => (false, cs)
  | cs => (false, cs)

/-- The exponent part, which must be all that is left: nothing, or a mark, an optional sign
and at least one digit. -/
def readExponent : List Char → Option Int
  | [] => some 0
  | c :: cs =>
    if c = 'e' ∨ c = 'E' then
      let (negative, ds) := readSign cs
      if ds ≠ [] ∧ ds.all Char.isDigit then
        let n : Int := Nat.ofDigitChars 10 ds 0
        some (if negative then -n else n)
      else none
    else none

/-- The digits after a point, if a point comes first, and what follows them. -/
def readFraction : List Char → List Char × List Char
  | '.' :: cs => (cs.takeWhile Char.isDigit, cs.dropWhile Char.isDigit)
  | cs => ([], cs)

/-- The parts of a decimal literal; it needs a digit before or after the point. -/
def read (cs : List Char) : Option DecimalLiteral :=
  let (negative, body) := readSign cs
  let whole := body.takeWhile Char.isDigit
  let (fraction, rest) := readFraction (body.dropWhile Char.isDigit)
  if whole = [] ∧ fraction = [] then none
  else (readExponent rest).map fun e => ⟨negative, whole, fraction, e⟩

/-- All digits of the literal as one integer. -/
def coefficient (l : DecimalLiteral) : Nat := Nat.ofDigitChars 10 (l.whole ++ l.fraction) 0

/-- The power of ten that goes with the coefficient. -/
def scale (l : DecimalLiteral) : Int := l.exponent - l.fraction.length

/-- The payload nearest to `n * 10 ^ s`. Values beyond 10^400 or below 10^-400 are far
outside the doubles and are not computed. -/
def nearestPayload (n : Nat) (s : Int) : Nat :=
  let top : Int := (Nat.toDigits 10 n).length + s
  if n = 0 then 0
  else if 400 < top then Binary64.infinityPayload
  else if top < -400 then 0
  else Binary64.roundPayload (n * Nat.pow 10 s.toNat * Binary64.unitsPerOne)
    (Nat.pow 10 (-s).toNat)

/-- The double nearest to the literal's exact value. -/
def toBinary64 (l : DecimalLiteral) : Binary64 :=
  Binary64.ofPayload l.negative (nearestPayload l.coefficient l.scale)

end DecimalLiteral

namespace Number

/-- The value of a hexadecimal digit. -/
def hexDigit? (c : Char) : Option Nat :=
  if c.isDigit then some (c.toNat - 48)
  else if 97 ≤ c.toNat ∧ c.toNat ≤ 102 then some (c.toNat - 87)
  else if 65 ≤ c.toNat ∧ c.toNat ≤ 70 then some (c.toNat - 55)
  else none

/-- The value of a run of hexadecimal digits. -/
def hexValue? (cs : List Char) : Option Nat :=
  cs.foldlM (fun n c => (hexDigit? c).map (16 * n + ·)) 0

/-- An integer of 64 bits in hexadecimal (`from_str_radix`): at least one digit, after a
plus sign or not. -/
def readHex (cs : List Char) : Option Nat :=
  let ds := match cs with
    | '+' :: r => r
    | r => r
  if ds = [] then none
  else (hexValue? ds).bind fun n => if n < Nat.pow 2 64 then some n else none

/-- What follows the mark of a hexadecimal literal. -/
def hexBody? : List Char → Option (List Char)
  | '0' :: 'x' :: cs => some cs
  | '0' :: 'X' :: cs => some cs
  | _ => none

/-- The number that trimmed text denotes. -/
def ofTrimmed (cs : List Char) : Number :=
  if cs = [] then integer 0
  else if cs = "Infinity".toList ∨ cs = "+Infinity".toList then infinity
  else if cs = "-Infinity".toList then negativeInfinity
  else match hexBody? cs with
    | some body =>
      match readHex body with
      | some n => ofBinary64 (Binary64.ofInt n)
      | none => nan
    | none =>
      match DecimalLiteral.read cs with
      | some l => ofBinary64 l.toBinary64
      | none => nan

/-- The number that a string denotes (`string_to_number`); malformed text is NaN. -/
def ofText (s : String) : Number := ofTrimmed (Text.trim s.toList)

end Number
end ScriptModel
