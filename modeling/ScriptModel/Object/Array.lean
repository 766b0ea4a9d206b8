import ScriptModel.Machine.Basic

/-!
# Arrays and functions as objects
-/

namespace ScriptModel
namespace Object

/-- A property made with all its fields. -/
def dataProperty (v : Value) (writable enumerable configurable : Bool) : Property :=
  .data ⟨v, writable, enumerable, configurable⟩

/-- The elements of an array, from the index `i` on. -/
def withElements (o : Object) : Nat → List Value → Object
  | _, [] => o
  | i, v :: vs =>
    let element := dataProperty v true true true
    (o.withProperty (.index (UInt32.ofNat i)) element).withElements (i + 1) vs

/-- An array of values (`array_create`). Its `length` does not follow later writes. -/
def array (vs : List Value) : Object :=
  ((ofClass .array (some .objectPrototype)).withElements 0 vs).withProperty .length
    (dataProperty (.ofInt vs.length) true false false)

/-- A function that tells its number of parameters (`create_ordinary_function`). -/
def functionWithLength (c : Callable Step) (length : UInt32) (proto : Option Address) :
    Object :=
  (function c proto).withProperty .length (dataProperty (.ofInt length.toNat) false false false)

/-- A native function without a construct behaviour (`create_native_function`). -/
def native (name : String) (arity : UInt32) (b : Behaviour Step) (proto : Option Address) :
    Object :=
  functionWithLength (.native ⟨name, arity, b, none⟩) arity proto

end Object
end ScriptModel
