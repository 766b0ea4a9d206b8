import ScriptModel.Builtin.FunctionMethods

/-!
# Installation of the built-ins

Each method becomes a native function and is stored as a property that no enumeration shows.
The first that cannot be stored ends the installation.
-/

namespace ScriptModel

/-- An object that methods are installed on. -/
structure Host where
  name : String
  address : Address

namespace Host

def object : Host := ⟨"Object.prototype", .objectPrototype⟩
def function : Host := ⟨"Function.prototype", .functionPrototype⟩

end Host

namespace Invoker

variable (inv : Invoker)

/-- Stores one method. What it replaces is let go at once. -/
def installMethod (host : Host) (m : Method) : Run Unit := Run.swept (fun _ => []) do
  let f ← Run.alloc (.native m.name m.arity (.builtin m.behaviour) (some .functionPrototype))
  match ← (inv.put host.address (.ofString m.name) (.object f) false true).attempt with
  | .ok true => return ()
  | .ok false => Run.abort ⟨host.name, m.name, .notStored⟩
  | .error e => Run.abort ⟨host.name, m.name, e⟩

/-- Stores methods in turn, up to the first that cannot be stored (`install_methods`). -/
def installAll (host : Host) : List Method → Run Unit
  | [] => return ()
  | m :: ms => do
    inv.installMethod host m
    installAll host ms

/-- Installs the methods of Object.prototype, of Function.prototype, or of both
(`register_core_builtins`). -/
def register : Registration → Run Unit
  | .object => inv.installAll .object Method.ofObject
  | .function => inv.installAll .function Method.onFunctionPrototype
  | .all => do
    inv.installAll .object Method.ofObject
    inv.installAll .function Method.onFunctionPrototype

end Invoker
end ScriptModel
