import ScriptModel.Number.Text

/-!
# Values

The values of the analysed program, with one more than the program has: `unknown` stands for
a value that the analysis could not determine. Objects are named by their address; what an
object holds is in the heap.

Here and in all that follows, a name in brackets such as (`JsValue`) is the name that the
analyser has for what the docstring is about, where that is another one.
-/

namespace ScriptModel

/-- The identity of an object (`JsObjectType`). -/
structure Address where
  index : Nat
  deriving DecidableEq, Inhabited

/-- The root of all prototype chains, unless a script cuts them. -/
def Address.objectPrototype : Address := ⟨0⟩

/-- The prototype of functions, itself a function. -/
def Address.functionPrototype : Address := ⟨1⟩

/-- The function behind the poisoned properties of bound functions. -/
def Address.typeThrower : Address := ⟨2⟩

/-- A value (`JsValue`). -/
inductive Value where
  | undefined
  | null
  | boolean (b : Bool)
  | string (s : String)
  | number (n : Number)
  | object (a : Address)
  | unknown
  deriving DecidableEq, Inhabited

/-- The kinds of values. -/
inductive ValueKind where
  | undefined
  | null
  | boolean
  | string
  | number
  | object
  | unknown
  deriving DecidableEq

def ValueKind.name : ValueKind → String
  | undefined => "Undefined"
  | null => "Null"
  | boolean => "Boolean"
  | string => "String"
  | number => "Number"
  | object => "Object"
  | unknown => "Unknown"

namespace Value

def kind : Value → ValueKind
  | undefined => .undefined
  | null => .null
  | boolean _ => .boolean
  | string _ => .string
  | number _ => .number
  | object _ => .object
  | unknown => .unknown

def ofInt (i : Int) : Value := number (.integer (Int64.ofInt i))

/-- The value of a computed double (`from_f64`). -/
def ofBinary64 (x : Binary64) : Value := number (.ofBinary64 x)

def isUnknown : Value → Bool
  | unknown => true
  | _ => false

def isObject : Value → Bool
  | object _ => true
  | _ => false

/-- The object that the value is (`as_object`). -/
def address? : Value → Option Address
  | object a => some a
  | _ => none

/-- The value is of one of the kinds (`is_type`). -/
def isKind (v : Value) (kinds : List ValueKind) : Bool := kinds.contains v.kind

/-- Whether one of the values is undetermined (`are_any_unknown`). -/
def anyUnknown (vs : List Value) : Bool := vs.any isUnknown

/-- A comparison (`is_same_value`) that leaves the comparison of numbers open. Undetermined
values are never provably the same. -/
def compare (numbers : Number → Number → Bool) : Value → Value → Bool
  | undefined, undefined => true
  | null, null => true
  | boolean a, boolean b => a == b
  | string a, string b => a == b
  | number a, number b => numbers a b
  | object a, object b => a == b
  | _, _ => false

/-- The same value (`same_value`): NaN is itself, and the zeros are two. -/
def same : Value → Value → Bool := compare Number.same

/-- Strict equality (`strict_equality_comparison`): NaN equals nothing, and the zeros are
equal. -/
def strictEqual : Value → Value → Bool := compare Number.equal

/-- Equality of representations, in which `unknown` is itself. -/
def sameForm : Value → Value → Bool
  | unknown, unknown => true
  | a, b => compare Number.sameForm a b

/-- Truth of a value; `none` when it is undetermined. -/
def truth? : Value → Option Bool
  | undefined => some false
  | null => some false
  | boolean b => some b
  | string s => some (s != "")
  | number n => some n.isTruthy
  | object _ => some true
  | unknown => none

/-- The boolean that a value converts to. -/
def toBoolean (v : Value) : Value :=
  match v.truth? with
  | some b => boolean b
  | none => unknown

end Value
end ScriptModel
