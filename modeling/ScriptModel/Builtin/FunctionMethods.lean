import ScriptModel.Builtin.ObjectMethods
import ScriptModel.Object.Array

/-!
# The methods of Function.prototype

`apply` and `call` invoke the receiver with a list of arguments, read from an object that
looks like an array or given one by one; `bind` makes a bound function of it.
-/

namespace ScriptModel
namespace Builtin

variable (inv : Invoker) (self : Value) (args : List Value)

/-- The receiver, which must be callable (`callable_this`). -/
def callee : Run Address := do
  match self with
  | .object f => if ← Run.isCallable self then return f else Run.raise .notCallable
  | _ => Run.raise .notCallable

/-- The description of a receiver of class Function (`function_proto_to_string`). -/
def describeFunction : Run Value := do
  match self with
  | .object f =>
    if (← Run.object f).cls = .function then describe self else Run.raise .notFunction
  | _ => Run.raise .notFunction

/-- The elements of an object at the indices from `i` on, `n` of them, in ascending
order. -/
def elements (list : Address) : Nat → Nat → Run (List Value)
  | _, 0 => return []
  | i, n + 1 => do
    let v ← inv.get list (.index (UInt32.ofNat i))
    return v :: (← Run.holding [v] (elements list (i + 1) n))

/-- All elements of an object; `none` when their number is undetermined. Its `length` is
read and converted once, and refused before any element is read. -/
def elements? (list : Address) : Run (Option (List Value)) := do
  let length ← inv.get list .length
  Run.holding [length] do
    let number ← inv.toNumber length
    if number.isUnknown then return none
    else do
      let n := (← inv.toWord number).toNat
      Run.checkArguments n
      return some (← elements inv list 0 n)

/-- Invokes a function with the elements of an object. The object is let go before the call,
and what was given beyond it is held to the end. -/
def applyList (f : Address) (list : Address) : Run Value := do
  let beyond := args.drop 2
  let inHand (vs : Option (List Value)) := argument args 0 :: (beyond ++ vs.getD [])
  match ← Run.swept inHand (Run.holding args (elements? inv list)) with
  | none => return .unknown
  | some vs => Run.holding beyond (inv.call f (argument args 0) vs)

/-- Calls the receiver with a list (`function_proto_apply`); without a list, with no
arguments. -/
def applyTo : Run Value := do
  let f ← callee self
  match argument args 1 with
  | .undefined => Run.holding (args.drop 2) (inv.call f (argument args 0) [])
  | .null => Run.holding (args.drop 2) (inv.call f (argument args 0) [])
  | .object list => applyList inv args f list
  | _ => Run.raise .argumentsNotObject

/-- Calls the receiver with the arguments behind the first (`function_proto_call`). -/
def callWith : Run Value := do
  let f ← callee self
  inv.call f (argument args 0) (args.drop 1)

/-- The `length` of a bound function (`bound_length`): what is left of the target's when
`taken` arguments are fixed, and never below zero. -/
def remainingLength (target : Address) (taken : Nat) : Run Value := do
  if (← Run.object target).cls ≠ .function then return .ofInt 0
  else do
    let length ← inv.toNumber (← inv.get target .length)
    if length.isUnknown then return .unknown
    else
      let n ← inv.toInteger length
      return .ofBinary64 (n.sub (.ofInt taken)).clampBelow

/-- A bound function as an object. Reading or writing its `caller` and `arguments`
raises. -/
def boundObject (b : Bound) (length : Value) : Object :=
  let poison : Property := .accessor ⟨some .typeThrower, some .typeThrower, false, false⟩
  (((Object.function (.bound b) (some .functionPrototype)).withProperty .length
    (Object.dataProperty length false false false)).withProperty .caller poison).withProperty
      .arguments poison

/-- Binds the receiver to the arguments (`function_proto_bind`). -/
def bindTo : Run Value := do
  let target ← callee self
  let fixed := args.drop 1
  let length ← Run.holding args (remainingLength inv target fixed.length)
  return .object (← Run.alloc (boundObject ⟨target, argument args 0, fixed⟩ length))

end Builtin

/-- Runs a built-in behaviour. -/
def Builtin.run (inv : Invoker) (b : Builtin) (self : Value) (args : List Value) :
    Run Value :=
  match b with
  | objectToString => Run.gated self args (describe self)
  | toLocaleString => Run.gated self args (localeText inv self args)
  | valueOf => Run.gated self args (ownValue self)
  | hasOwnProperty => Run.gated self args (hasOwn inv self args)
  | isPrototypeOf => Run.gated self args (isAbove self args)
  | propertyIsEnumerable => Run.gated self args (ownIsEnumerable inv self args)
  | functionToString => Run.gated self args (describeFunction self)
  | apply => Run.gated self args (applyTo inv self args)
  | call => Run.gated self args (callWith inv self args)
  | bind => Run.gated self args (bindTo inv self args)
  | idle => pure .undefined
  | throwTypeError => Run.raise .restricted

end ScriptModel
