import ScriptModel.Operation.Conversion

/-!
# The methods of Object.prototype

Every method yields `unknown`, and does nothing, when its receiver or any argument is
undetermined. A method that runs functions holds its arguments meanwhile.
-/

namespace ScriptModel

/-- The word that `toString` puts into its brackets. -/
def Value.tag (h : Heap) : Value → String
  | undefined => "Undefined"
  | null => "Null"
  | boolean _ => "Boolean"
  | string _ => "String"
  | number _ => "Number"
  | object a => (h.get a).cls.name
  | unknown => "Unknown"

/-- A receiver that stands for an object: all but undefined and null. -/
def Value.isCoercible : Value → Bool
  | undefined => false
  | null => false
  | _ => true

namespace Run

/-- Refuses a receiver that stands for no object (`require_object_coercible`). -/
def requireCoercible (self : Value) : Run Unit :=
  if self.isCoercible then pure () else raise .notCoercible

/-- What a built-in does once all operands are known (`any_unknown`). -/
def gated (self : Value) (args : List Value) (x : Run Value) : Run Value :=
  if Value.anyUnknown (self :: args) then pure .unknown else x

end Run

namespace Builtin

variable (inv : Invoker) (self : Value) (args : List Value)

/-- An argument, undefined when it is absent. -/
def argument (i : Nat) : Value := args.getD i .undefined

/-- The class of the receiver in brackets (`object_proto_to_string`). -/
def describe : Run Value :=
  Run.onHeap fun h => .string ("[object " ++ self.tag h ++ "]")

/-- What the receiver's own `toString` gives (`object_proto_to_locale_string`). -/
def localeText : Run Value :=
  Run.holding args do
    Run.requireCoercible self
    match self with
    | .object o =>
      let method ← inv.get o .toStringMethod
      match method with
      | .unknown => return .unknown
      | .object f =>
        if ← Run.isCallable method then inv.call f self [] else Run.raise .toStringNotCallable
      | _ => Run.raise .toStringNotCallable
    | _ => inv.toText self

/-- The receiver itself (`object_proto_value_of`). -/
def ownValue : Run Value := do
  Run.requireCoercible self
  return self

/-- A question about the own property that the first argument names; receivers that are no
objects have none. The key is converted before the receiver is looked at. -/
def askOwn (question : Object → Key → Bool) : Run Value :=
  Run.holding args do
    match ← inv.toKey (argument args 0) with
    | none => return .unknown
    | some k => do
      Run.requireCoercible self
      match self with
      | .object o => Run.onHeap fun h => .boolean (question (h.get o) k)
      | _ => return .boolean false

/-- Whether there is such a property (`object_proto_has_own_property`). -/
def hasOwn : Run Value := askOwn inv self args Object.hasOwn

/-- Whether it shows in enumerations (`object_proto_property_is_enumerable`). -/
def ownIsEnumerable : Run Value :=
  askOwn inv self args fun o k =>
    match o.own? k with
    | none => false
    | some p => p.enumerable

/-- Whether the receiver is above the first argument (`object_proto_is_prototype_of`). -/
def isAbove : Run Value := do
  match argument args 0 with
  | .object v => do
    Run.requireCoercible self
    match self with
    | .object o => Run.onHeap fun h => .boolean (h.isAbove o v)
    | _ => return .boolean false
  | _ => return .boolean false

end Builtin
end ScriptModel
