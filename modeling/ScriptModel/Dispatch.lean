import ScriptModel.Script.Run

/-!
# Dispatch

Serving a request opens one frame and runs what the function consists of; whatever that
calls is served by another invoker, one frame deeper. `dispatch n` is the invoker that can
nest `n` frames. With a limit on the depth, one frame more than the limit is never used up,
so the budget does not show; without one, the host decides.
-/

namespace ScriptModel

namespace Invoker

variable (inv : Invoker)

/-- What a call runs inside its frame. A bound function passes the request on; it keeps its
target and its receiver alive itself. -/
def callBody (self : Value) (args : List Value) : Callable Step → Run Value
  | .scripted s =>
    match s.body with
    | none => pure (args.headD .undefined)
    | some r => r.run inv self args
  | .native n =>
    match n.behaviour with
    | .builtin b => b.run inv self args
    | .routine r => r.run inv self args
  | .bound b => inv (.call b.target b.receiver (b.arguments ++ args))

/-- Runs a construct body, which has no receiver and yields an object. -/
def constructWith (args : List Value) (r : Routine Step) : Run Address := do
  match ← r.run inv .undefined args with
  | .object a => return a
  | _ => Run.raise .notObject

/-- What a construction runs inside its frame. -/
def constructBody (args : List Value) : Callable Step → Run Address
  | .scripted s =>
    match s.construction with
    | .routine r => constructWith inv args r
    | _ => Run.raise .functionNotConstructor
  | .native n =>
    match n.construction with
    | some r => constructWith inv args r
    | none => Run.raise (.nativeNotConstructor n.name)
  | .bound b => do
    if (← Run.object b.target).callable.any Callable.isConstructor then
      inv (.construct b.target (b.arguments ++ args))
    else Run.raise .boundNotConstructor

/-- What an instance test runs inside its frame. -/
def testBody (f : Address) (v : Value) : Callable Step → Run Bool
  | .scripted s =>
    if s.testsInstances then inv.testInstance f v else Run.raise .noInstanceTest
  | .native _ => inv.testInstance f v
  | .bound b => do
    if (← Run.object b.target).callable.any Callable.testsInstances then
      inv (.hasInstance b.target v)
    else Run.raise .boundNoInstanceTest

/-- Serves a request in a frame of its own (`call`, `construct`, `has_instance`). What is no
function has no frame. -/
def serve : Invoker
  | .call f self args => do
    match (← Run.object f).callable with
    | none => Run.raise .notCallable
    | some c => Run.framed (inv.callBody self args c)
  | .construct f args => do
    match (← Run.object f).callable with
    | none => Run.raise .notConstructor
    | some c => Run.framed (inv.constructBody args c)
  | .hasInstance f v => do
    match (← Run.object f).callable with
    | none => Run.raise .noInstanceTest
    | some c => Run.framed (inv.testBody f v c)

end Invoker

/-- The invoker that can nest `n` frames. -/
def dispatch : Nat → Invoker
  | 0 => fun _ => Run.exhausted
  | n + 1 => (dispatch n).serve

end ScriptModel
