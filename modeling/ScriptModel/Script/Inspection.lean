import ScriptModel.Script.Operand
import ScriptModel.Script.Answer

/-!
# Questions

The answers to the questions that change nothing.
-/

namespace ScriptModel

/-- The name of a value's type, as `typeof` gives it (`get_type`). -/
def Value.typeName (h : Heap) : Value → String
  | undefined => "undefined"
  | null => "null"
  | boolean _ => "boolean"
  | string _ => "string"
  | number _ => "number"
  | object a => if (h.get a).isCallable then "function" else "object"
  | unknown => "unknown"

/-- A value as a message shows it. -/
def Value.display (h : Heap) : Value → String
  | undefined => "undefined"
  | null => "null"
  | boolean b => "bool(" ++ boolText b ++ ")"
  | string s => "\"" ++ s ++ "\""
  | number n => n.text
  | object a => "[object " ++ (h.get a).cls.name ++ "]"
  | unknown => "<unknown>"

/-- The value for an object that may be missing. -/
def Value.ofAddress? : Option Address → Value
  | none => null
  | some a => object a

/-- The double that a number denotes; what is no number denotes NaN. -/
def Value.toDouble : Value → Binary64
  | number n => n.toBinary64
  | _ => .nan

namespace Inspection

variable (act : Activation)

/-- A question about one object. -/
def ask (x : Operand) (f : Heap → Object → Answer) : Run Answer := do
  let a ← x.resolveObject act
  Run.onHeap fun h => f h (h.get a)

/-- A question about one value. -/
def askValue (x : Operand) (f : Heap → Value → Answer) : Run Answer := do
  let v ← x.resolve act
  Run.onHeap fun h => f h v

/-- A question about two values. -/
def askBoth (x y : Operand) (f : Value → Value → Bool) : Run Answer := do
  let v ← x.resolve act
  let w ← y.resolve act
  return .flag (f v w)

def run (i : Inspection) : Run Answer :=
  match i with
  | hasOwn x k => ask act x fun _ o => .flag (o.hasOwn k)
  | hasProperty x k => do
    let a ← x.resolveObject act
    Run.onHeap fun h => .flag (h.hasProperty a k)
  | property x k => ask act x fun _ o => .property (o.own? k)
  | propertyText x k => ask act x fun _ o => .text? ((o.own? k).map Property.inspect)
  | sameProperty x k y l => do
    let a ← x.resolveObject act
    let b ← y.resolveObject act
    Run.onHeap fun h =>
      match (h.get a).own? k, (h.get b).own? l with
      | some p, some q => .flag? (some (p.same q))
      | _, _ => .flag? none
  | keys x => ask act x fun _ o => .keys o.keys
  | isExtensible x => ask act x fun _ o => .flag o.extensible
  | prototype x => ask act x fun _ o => .value (.ofAddress? o.proto)
  | whole x => ask act x fun _ o => .object o
  | isConstructor x => ask act x fun _ o => .flag (o.callable.any Callable.isConstructor)
  | testsInstances x => ask act x fun _ o => .flag (o.callable.any Callable.testsInstances)
  | callable x => ask act x fun _ o => .callable o.callable
  | callDepth => Run.read fun s => .count s.stack.depth
  | toBoolean x => askValue act x fun _ v => .value v.toBoolean
  | toDouble x => askValue act x fun _ v => .double v.toDouble
  | numberOfText s => pure (.value (.number (.ofText s)))
  | typeName x => askValue act x fun h v => .text (v.typeName h)
  | display x => askValue act x fun h v => .text (v.display h)
  | representation x => askValue act x fun _ v => .text v.inspect
  | kindName x => askValue act x fun _ v => .text v.kind.name
  | className x =>
    askValue act x fun h v => .text? (v.address?.map fun a => (h.get a).cls.name)
  | isCallable x =>
    askValue act x fun h v => .flag (v.address?.any fun a => (h.get a).isCallable)
  | isObject x => askValue act x fun _ v => .flag v.isObject
  | isKind x ks => askValue act x fun _ v => .flag (v.isKind ks)
  | anyUnknown xs => do
    let vs ← Operand.resolveAll act xs
    return .flag (Value.anyUnknown vs)
  | same x y => askBoth act x y Value.same
  | strictEqual x y => askBoth act x y Value.strictEqual
  | sameForm x y => askBoth act x y Value.sameForm
  | key k => pure (.key k)
  | diagnostics => Run.read fun s => .diagnostics s.diagnostics

end Inspection
end ScriptModel
