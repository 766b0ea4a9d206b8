import ScriptModel.Object.Array
import ScriptModel.Operation.Conversion

/-!
# Operands

A running call gives meaning to the operands that speak of it. A name without a value is
undetermined.
-/

namespace ScriptModel

/-- The receiver and the arguments of a running call. -/
structure Activation where
  self : Value
  args : List Value

/-- Outside of all calls. -/
def Activation.top : Activation := ⟨.undefined, []⟩

namespace Value

/-- The sum of values: anything but a number makes it NaN, an undetermined value makes it
undetermined at once. -/
def sumFrom (total : Binary64) : List Value → Value
  | [] => ofBinary64 total
  | number n :: vs => sumFrom (total.add n.toBinary64) vs
  | unknown :: _ => unknown
  | _ :: vs => sumFrom .nan vs

end Value

namespace Operand

def resolve (act : Activation) : Operand → Run Value
  | constant v => pure v
  | named name => Run.read fun s => (s.named? name).getD .unknown
  | receiver => pure act.self
  | argument i => pure (act.args.getD i .undefined)
  | argumentCount => pure (.ofInt act.args.length)
  | argumentArray => do return .object (← Run.alloc (.array act.args))
  | argumentSum => pure (Value.sumFrom .zero act.args)

def resolveAll (act : Activation) : List Operand → Run (List Value)
  | [] => return []
  | x :: xs => do
    let v ← x.resolve act
    return v :: (← resolveAll act xs)

/-- The object that an operand names. -/
def resolveObject (act : Activation) (x : Operand) : Run Address := do
  match ← x.resolve act with
  | .object a => return a
  | _ => Run.raise .notObject

/-- The object that an operand names, if there is an operand. -/
def resolveObject? (act : Activation) : Option Operand → Run (Option Address)
  | none => return none
  | some x => do return some (← x.resolveObject act)

end Operand

/-- The fragment that a draft stands for. -/
def Draft.resolve (act : Activation) (d : Draft) : Run Fragment := do
  let value ← match d.value with
    | none => pure none
    | some x => do pure (some (← x.resolve act))
  let getter ← match d.getter with
    | none => pure none
    | some x => do pure (some (← Operand.resolveObject? act x))
  let setter ← match d.setter with
    | none => pure none
    | some x => do pure (some (← Operand.resolveObject? act x))
  return ⟨d.kind, value, d.writable, getter, setter, d.enumerable, d.configurable⟩

end ScriptModel
