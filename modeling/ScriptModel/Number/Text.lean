import ScriptModel.Number.Basic
import ScriptModel.Number.Shortest

/-!
# The text of a number

Doubles are written with the fewest digits that read back (`Binary64.shortest`). A `Layout`
holds the decisions that remain: which magnitudes are written positionally, and whether a
whole number keeps its point.
-/

namespace ScriptModel

/-- How a double is laid out. -/
structure Layout where
  /-- Exponents `e` of the leading digit with `low ≤ e < high` are written positionally;
  without bounds, all are. -/
  positional : Option (Int × Int)
  /-- A whole number written positionally ends in `.0`. -/
  keepsPoint : Bool

namespace Layout

/-- Never an exponent, and no point after a whole number. -/
def plain : Layout := ⟨none, false⟩

/-- Magnitudes from 10^-4 up to 10^16 positionally with a point, all others with an
exponent. -/
def scientific : Layout := ⟨some (-4, 16), true⟩

/-- The digits with the point at its place; `e` is the exponent of the first of them. -/
def point (l : Layout) (ds : List Char) (e : Int) : List Char :=
  if e < 0 then '0' :: '.' :: (List.replicate (-e - 1).toNat '0' ++ ds)
  else
    let whole := (e + 1).toNat
    if ds.length ≤ whole then
      ds ++ List.replicate (whole - ds.length) '0' ++ (if l.keepsPoint then ['.', '0'] else [])
    else ds.take whole ++ '.' :: ds.drop whole

/-- One digit, the others after a point, and the exponent. -/
def withExponent (ds : List Char) (e : Int) : List Char :=
  ds.take 1 ++ (if ds.length ≤ 1 then [] else '.' :: ds.drop 1) ++ 'e' :: (Int.repr e).toList

/-- The text of a positive finite payload. -/
def magnitude (l : Layout) (p : Nat) : List Char :=
  let d := Binary64.shortest p
  match l.positional with
  | none => l.point d.digits d.leading
  | some (low, high) =>
    if low ≤ d.leading ∧ d.leading < high then l.point d.digits d.leading
    else withExponent d.digits d.leading

/-- The text of a double. -/
def render (l : Layout) (x : Binary64) : String :=
  if x.isNaN then "NaN"
  else
    let text :=
      if x.isInfinite then ['i', 'n', 'f']
      else if x.isZero then (if l.keepsPoint then ['0', '.', '0'] else ['0'])
      else l.magnitude x.payload
    String.ofList (if x.isNegative then '-' :: text else text)

end Layout

namespace Number

/-- The text of a number as a script sees it. -/
def text : Number → String
  | integer i => Int.repr i.toInt
  | double x => Layout.plain.render x
  | nan => "NaN"
  | infinity => "Infinity"
  | negativeInfinity => "-Infinity"

/-- The text of a number with its representation, for inspection. -/
def inspect : Number → String
  | integer i => "Integer(" ++ Int.repr i.toInt ++ ")"
  | double x => "Float(" ++ Layout.scientific.render x ++ ")"
  | nan => "NaN"
  | infinity => "PositiveInfinity"
  | negativeInfinity => "NegativeInfinity"

end Number
end ScriptModel
