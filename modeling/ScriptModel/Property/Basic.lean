import ScriptModel.Value
import ScriptModel.Text.Quoted

/-!
# Properties

A property holds a value or a pair of accessor functions. Both kinds are enumerable or not,
and configurable or not; a property that is not configurable is *locked*.
-/

namespace ScriptModel

/-- A property that holds a value (`PropertyDescriptorData`). -/
structure DataProperty where
  value : Value
  writable : Bool
  enumerable : Bool
  configurable : Bool
  deriving DecidableEq

/-- A property read and written by functions (`PropertyDescriptorAccessor`). -/
structure AccessorProperty where
  getter : Option Address
  setter : Option Address
  enumerable : Bool
  configurable : Bool
  deriving DecidableEq

/-- A property (`PropertyDescriptor`). -/
inductive Property where
  | data (d : DataProperty)
  | accessor (a : AccessorProperty)
  deriving DecidableEq

/-- The two kinds of properties. -/
inductive PropertyKind where
  | data
  | accessor
  deriving DecidableEq

namespace Property

def kind : Property → PropertyKind
  | data _ => .data
  | accessor _ => .accessor

def enumerable : Property → Bool
  | data d => d.enumerable
  | accessor a => a.enumerable

def configurable : Property → Bool
  | data d => d.configurable
  | accessor a => a.configurable

def withEnumerable (p : Property) (b : Bool) : Property :=
  match p with
  | data d => data { d with enumerable := b }
  | accessor a => accessor { a with enumerable := b }

def withConfigurable (p : Property) (b : Bool) : Property :=
  match p with
  | data d => data { d with configurable := b }
  | accessor a => accessor { a with configurable := b }

/-- The property of a kind with nothing in it: no value, no functions, not writable. -/
def blank (k : PropertyKind) (enumerable configurable : Bool) : Property :=
  match k with
  | .data => data ⟨.undefined, false, enumerable, configurable⟩
  | .accessor => accessor ⟨none, none, enumerable, configurable⟩

/-- The addresses that a property keeps alive. -/
def references : Property → List Address
  | data d => d.value.address?.toList
  | accessor a => a.getter.toList ++ a.setter.toList

/-- Equality of properties, with the same value in the sense of `Value.same`. -/
def same : Property → Property → Bool
  | data a, data b =>
    a.value.same b.value && a.writable == b.writable && a.enumerable == b.enumerable
      && a.configurable == b.configurable
  | accessor a, accessor b =>
    a.getter == b.getter && a.setter == b.setter && a.enumerable == b.enumerable
      && a.configurable == b.configurable
  | _, _ => false

@[simp] theorem kind_withEnumerable (p : Property) (b : Bool) :
    (p.withEnumerable b).kind = p.kind := by cases p <;> rfl

@[simp] theorem kind_withConfigurable (p : Property) (b : Bool) :
    (p.withConfigurable b).kind = p.kind := by cases p <;> rfl

@[simp] theorem enumerable_withEnumerable (p : Property) (b : Bool) :
    (p.withEnumerable b).enumerable = b := by cases p <;> rfl

@[simp] theorem enumerable_withConfigurable (p : Property) (b : Bool) :
    (p.withConfigurable b).enumerable = p.enumerable := by cases p <;> rfl

@[simp] theorem configurable_withEnumerable (p : Property) (b : Bool) :
    (p.withEnumerable b).configurable = p.configurable := by cases p <;> rfl

@[simp] theorem configurable_withConfigurable (p : Property) (b : Bool) :
    (p.withConfigurable b).configurable = b := by cases p <;> rfl

end Property

/-! ## The form for inspection -/

/-- The word for a truth value. -/
def boolText (b : Bool) : String := if b then "true" else "false"

/-- A value with its representation, for inspection. -/
def Value.inspect : Value → String
  | undefined => "JsValue::Undefined"
  | null => "JsValue::Null"
  | boolean b => "JsValue::Boolean(" ++ boolText b ++ ")"
  | string s => "JsValue::String(" ++ Text.quoted s ++ ")"
  | number n => "JsValue::Number(" ++ n.inspect ++ ")"
  | object _ => "JsValue::Object(...)"
  | unknown => "JsValue::Unknown"

/-- A record for inspection: its name, and its fields in order. -/
def inspectRecord (name : String) (fields : List (String × String)) : String :=
  name ++ " \x7b " ++ ", ".intercalate (fields.map fun f => f.1 ++ ": " ++ f.2) ++ " \x7d"

/-- A property with its representation; of an accessor's functions only their presence
shows. -/
def Property.inspect : Property → String
  | data d => "Data(" ++ inspectRecord "PropertyDescriptorData"
      [("value", d.value.inspect), ("writable", boolText d.writable),
       ("enumerable", boolText d.enumerable),
       ("configurable", boolText d.configurable)] ++ ")"
  | accessor a => "Accessor(" ++ inspectRecord "PropertyDescriptorAccessor"
      [("get", boolText a.getter.isSome), ("set", boolText a.setter.isSome),
       ("enumerable", boolText a.enumerable),
       ("configurable", boolText a.configurable)] ++ ")"

end ScriptModel
