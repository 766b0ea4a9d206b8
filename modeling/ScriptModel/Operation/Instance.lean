import ScriptModel.Machine.Invoker

/-!
# Instance tests

`v instanceof f` holds when the object that `f` has as `prototype` is above `v`.
-/

namespace ScriptModel
namespace Invoker

variable (inv : Invoker)

/-- The test of a function that is not bound (`ordinary_has_instance`). A value that is no
object is an instance of nothing, and then the function's `prototype` is not read. -/
def testInstance (f : Address) (v : Value) : Run Bool := do
  match v with
  | .object a =>
    match ← inv.get f .prototype with
    | .object p => Run.onHeap fun h => h.isAbove p a
    | _ => Run.raise .prototypeNotObject
  | _ => return false

/-- The test as an expression; an undetermined operand leaves it undetermined. -/
def instanceOf (v f : Value) : Run Value := do
  if v.isUnknown || f.isUnknown then return .unknown
  else match f with
    | .object a => return .boolean (← inv.hasInstance a v)
    | _ => Run.raise .notInstanceTarget

end Invoker
end ScriptModel
