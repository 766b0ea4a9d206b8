import ScriptModel.Machine.Invoker
import ScriptModel.Number.Literal

/-!
# Conversions

An object converts through its methods `valueOf` and `toString`, in the order that the hint
asks for; the first that yields no object decides. Values that are no objects convert
without running anything, and an undetermined value stays undetermined.
-/

namespace ScriptModel

/-- The methods to try, in order; a hint is a `PreferredType`. -/
def Hint.order : Hint → List Key
  | string => [.toStringMethod, .valueOfMethod]
  | default => [.valueOfMethod, .toStringMethod]
  | number => [.valueOfMethod, .toStringMethod]

namespace Value

/-- The number of a value that is no object. An object has none of its own, and is never
asked: see `Invoker.toNumber_object`. -/
def primitiveNumber : Value → Value
  | undefined => number .nan
  | null => number (.integer 0)
  | boolean b => number (.integer (if b then 1 else 0))
  | string s => number (.ofText s)
  | number n => number n
  | object _ => unknown
  | unknown => unknown

/-- The text of a value that is no object. -/
def primitiveText : Value → Value
  | undefined => string "undefined"
  | null => string "null"
  | boolean b => string (boolText b)
  | string s => string s
  | number n => string n.text
  | object _ => unknown
  | unknown => unknown

end Value

namespace Run

/-- Whether the value can be called. -/
def isCallable (v : Value) : Run Bool :=
  match v with
  | .object a => onHeap fun h => (h.get a).isCallable
  | _ => pure false

theorem isCallable_object {a : Address} {s : Machine} {b : Bool}
    (h : (s.heap.get a).isCallable = b) : isCallable (.object a) s = (.done b, s) := by
  rw [isCallable, onHeap, read_apply, h]

end Run

namespace Invoker

variable (inv : Invoker)

/-- Tries one method. It decides nothing when it is not callable or yields an object; an
undetermined one leaves the result undetermined. -/
def primitiveBy? (o : Address) (k : Key) : Run (Option Value) := do
  let method ← inv.get o k
  match method with
  | .unknown => return some .unknown
  | .object f =>
    if ← Run.isCallable method then
      let result ← inv.call f (.object o) []
      return if result.isObject then none else some result
    else return none
  | _ => return none

/-- Tries the methods in turn, each after the one before was let go. -/
def firstPrimitive (o : Address) : List Key → Run Value
  | [] => Run.raise .noPrimitive
  | k :: ks => do
    match ← Run.swept Option.toList (inv.primitiveBy? o k) with
    | some v => return v
    | none => firstPrimitive o ks

def toPrimitive (v : Value) (hint : Hint) : Run Value :=
  match v with
  | .object o => Run.holding [v] (inv.firstPrimitive o hint.order)
  | v => pure v

/-- The number of a value, or `unknown` (`to_number`). What an object converts to is no
object, so one conversion is enough. -/
def toNumber (v : Value) : Run Value := do
  return (← inv.toPrimitive v .number).primitiveNumber

/-- The text of a value, or `unknown` (`to_string`). -/
def toText (v : Value) : Run Value := do
  return (← inv.toPrimitive v .string).primitiveText

/-- The number of a value, for an operation that cannot do without (`number_of`). -/
def numberFor (operation : String) (v : Value) : Run Number := do
  match ← inv.toNumber v with
  | .number n => return n
  | _ => Run.raise (.undetermined operation)

/-- The integer part of a value, as a double. -/
def toInteger (v : Value) : Run Binary64 := do
  return (← inv.numberFor "ToInteger" v).integral

/-- The integer part of a value modulo 2^32 (`to_uint32`). -/
def toWord (v : Value) : Run UInt32 := do
  return (← inv.numberFor "ToUint32" v).toWord

/-- The property key that a value names (`property_key_of`); `none` when its text is
undetermined. -/
def toKey (v : Value) : Run (Option Key) := do
  match ← inv.toText v with
  | .string s => return some (.ofString s)
  | _ => return none

end Invoker
end ScriptModel
