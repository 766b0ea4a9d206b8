import ScriptModel.Number.Binary64

/-!
# The fewest digits that read back

`Binary64.shortest p` is a decimal with the fewest digits among those that round to the
double of payload `p`, and of these the one nearest to the double (the upper one when two
are equally near).

The reals that round to a payload lie between the midpoints to its two neighbours, the ends
included exactly when the payload is even. Both midpoints are whole numbers of half units. A
grid of decimals with `d` digits meets that interval exactly when one of the double's two
neighbours on the grid does, so each grid needs two tests; the search goes from one digit to
seventeen.
-/

namespace ScriptModel

/-- The decimal `coefficient * 10 ^ exponent`. -/
structure Decimal where
  coefficient : Nat
  exponent : Int
  deriving DecidableEq, Inhabited

namespace Decimal

/-- The digits of the coefficient without the zeros at its end. -/
def digits (d : Decimal) : List Char :=
  ((Nat.toDigits 10 d.coefficient).reverse.dropWhile (· == '0')).reverse

/-- The exponent of the leading digit. -/
def leading (d : Decimal) : Int :=
  d.exponent + (Nat.toDigits 10 d.coefficient).length - 1

end Decimal

namespace Binary64

/-- The exponent of the leading digit of a positive magnitude. The smallest magnitude, one
unit, is above 10^-324, so the scaled quotient is never zero. -/
def leadingExponent (p : Nat) : Int :=
  ((Nat.toDigits 10 (magnitude p * Nat.pow 10 324 / unitsPerOne)).length : Int) - 325

/-- Whether `n` steps of a grid, each `step` half units over `scale`, round to payload
`p`. -/
def readsBack (p n step scale : Nat) : Bool :=
  let low := (magnitude (p - 1) + magnitude p) * scale
  let high := (magnitude p + magnitude (p + 1)) * scale
  if p % 2 = 0 then decide (low ≤ n * step) && decide (n * step ≤ high)
  else decide (low < n * step) && decide (n * step < high)

/-- The point of the grid 10^k that reads back as payload `p`, if there is one: the nearer
of the two neighbours that do, the upper one when they are equally near. -/
def onGrid (p : Nat) (k : Int) : Option Decimal :=
  let step := 2 * unitsPerOne * Nat.pow 10 k.toNat
  let scale := Nat.pow 10 (-k).toNat
  let value := 2 * magnitude p * scale
  let n := value / step
  let below := readsBack p n step scale
  let above := readsBack p (n + 1) step scale
  if above && (!below || decide ((n + 1) * step - value ≤ value - n * step)) then
    some ⟨n + 1, k⟩
  else if below then some ⟨n, k⟩
  else none

/-- The shortest decimal for a positive payload; seventeen digits always suffice. -/
def shortest (p : Nat) : Decimal :=
  let e := leadingExponent p
  ((List.range 17).findSome? fun (d : Nat) => onGrid p (e - (d : Int))).getD ⟨0, 0⟩

end Binary64
end ScriptModel
