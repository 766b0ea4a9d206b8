import ScriptModel.Value
import ScriptModel.Builtin.Basic

/-!
# What makes an object callable

A callable object is a scripted function, a native function or a bound function. The steps
that scripted bodies consist of are left open here (`step`), because steps in turn create
callables.
-/

namespace ScriptModel

/-- A value as a step names it. The last five speak of the running call. -/
inductive Operand where
  | constant (v : Value)
  | named (name : String)
  | receiver
  | argument (i : Nat)
  | argumentCount
  /-- A new array of all arguments. -/
  | argumentArray
  /-- The sum of all arguments. -/
  | argumentSum

/-- A body: steps, then the value that it returns. -/
structure Routine (step : Type) where
  steps : List step
  result : Operand

/-- The construct behaviour of a scripted function. -/
inductive Construction (step : Type) where
  /-- It has none. -/
  | absent
  /-- It claims to have one, which refuses. -/
  | refusing
  | routine (r : Routine step)

/-- A function whose body is part of the analysed program (`FunctionBody`). -/
structure Scripted (step : Type) where
  /-- Without a body, a call returns its first argument. -/
  body : Option (Routine step)
  construction : Construction step
  /-- It can stand on the right-hand side of an instance test (`supports_has_instance`). -/
  testsInstances : Bool

/-- What a native function does when called. -/
inductive Behaviour (step : Type) where
  | builtin (b : Builtin)
  | routine (r : Routine step)

/-- A native function (`NativeFunction`). -/
structure Native (step : Type) where
  name : String
  arity : UInt32
  behaviour : Behaviour step
  construction : Option (Routine step)

/-- A function that calls another with a fixed receiver and fixed first arguments
(`BoundFunction`). -/
structure Bound where
  target : Address
  receiver : Value
  arguments : List Value

/-- What makes an object callable (`FunctionKind`). -/
inductive Callable (step : Type) where
  | scripted (f : Scripted step)
  | native (f : Native step)
  | bound (f : Bound)

namespace Callable

variable {step : Type}

/-- Whether there is a construct behaviour. A bound function always has one; it fails when
the target has none. -/
def isConstructor : Callable step → Bool
  | scripted f =>
    match f.construction with
    | .absent => false
    | _ => true
  | native f => f.construction.isSome
  | bound _ => true

/-- Whether there is an instance test (`has_has_instance`). -/
def testsInstances : Callable step → Bool
  | scripted f => f.testsInstances
  | native _ => true
  | bound _ => true

/-- The addresses that a callable keeps alive. -/
def references : Callable step → List Address
  | bound f => f.target :: (f.receiver :: f.arguments).filterMap Value.address?
  | _ => []

end Callable
end ScriptModel
