/-!
# The built-in behaviours

The behaviours of native functions that the model itself supplies, and the tables of methods
that are installed on the two prototypes. What a behaviour does is in
`Builtin.ObjectMethods` and `Builtin.FunctionMethods`.
-/

namespace ScriptModel

inductive Builtin where
  | objectToString
  | toLocaleString
  | valueOf
  | hasOwnProperty
  | isPrototypeOf
  | propertyIsEnumerable
  | functionToString
  | apply
  | call
  | bind
  /-- Function.prototype called as a function: it ignores everything. -/
  | idle
  /-- Raises a type error, always. -/
  | throwTypeError
  deriving DecidableEq

/-- A method as it is installed: its name, the `length` of the function, what it does. -/
structure Method where
  name : String
  arity : UInt32
  behaviour : Builtin
  deriving DecidableEq

namespace Method

/-- The methods of Object.prototype (`OBJECT_PROTOTYPE_METHODS`). -/
def ofObject : List Method :=
  [⟨"toString", 0, .objectToString⟩, ⟨"toLocaleString", 0, .toLocaleString⟩,
   ⟨"valueOf", 0, .valueOf⟩, ⟨"hasOwnProperty", 1, .hasOwnProperty⟩,
   ⟨"isPrototypeOf", 1, .isPrototypeOf⟩, ⟨"propertyIsEnumerable", 1, .propertyIsEnumerable⟩]

/-- The methods of Function.prototype that it does not share with Object.prototype
(`FUNCTION_PROTOTYPE_METHODS`). -/
def ofFunction : List Method :=
  [⟨"toString", 0, .functionToString⟩, ⟨"apply", 2, .apply⟩, ⟨"call", 1, .call⟩,
   ⟨"bind", 1, .bind⟩]

/-- All methods of Function.prototype, in the order in which they are installed: it shares
those of Object.prototype except `toString`. -/
def onFunctionPrototype : List Method :=
  ofObject.filter (fun m => decide (m.name ≠ "toString")) ++ ofFunction

end Method
end ScriptModel
