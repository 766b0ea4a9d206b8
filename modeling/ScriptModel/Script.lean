import ScriptModel.Dispatch

/-!
# Scripts

A script runs on a fresh machine with all built-ins installed. A step that raises does not
stop the script.
-/

namespace ScriptModel

namespace Machine

/-- The objects that every program shares (`Intrinsics`), before any method is installed. -/
def bareHeap : Heap :=
  let h := Heap.empty.alloc (.ofClass .object none)
  let h := h.alloc (.native "" 0 (.builtin .idle) (some .objectPrototype))
  h.alloc { Object.native "ThrowTypeError" 0 (.builtin .throwTypeError)
    (some .functionPrototype) with extensible := false }

/-- A machine whose prototypes have no methods yet. -/
def bare (l : Limits) : Machine :=
  { heap := bareHeap
    stack := .new l
    trace := []
    names := [("ObjectPrototype", .object .objectPrototype),
      ("FunctionPrototype", .object .functionPrototype),
      ("ThrowTypeError", .object .typeThrower)]
    held := []
    diagnostics := [] }

/-- A fresh machine (`with_config`). -/
def fresh (l : Limits) : Machine :=
  { ((dispatch 1).register .all (bare l)).2 with trace := [] }

/-- The values logged since the trace had the given length, oldest first. -/
def loggedSince (s : Machine) (length : Nat) : List Value :=
  ((s.trace.take (s.trace.length - length)).filterMap fun e =>
    match e with
    | .logged v => some v
    | _ => none).reverse

end Machine

/-- How a step of a script ended, and what was logged meanwhile. -/
structure StepResult where
  outcome : Outcome Answer
  log : List Value

namespace Script

/-- The invoker for steps outside of all calls. -/
def invoker (host : Nat) (s : Machine) : Invoker := dispatch (s.stack.limits.budget host)

/-- Runs one step of a script. -/
def step (host : Nat) (s : Machine) (x : Step) : StepResult × Machine :=
  let (r, t) := Run.swept (fun _ => []) (x.run (invoker host s) .top) s
  (⟨r, t.loggedSince s.trace.length⟩, t)

/-- Runs the steps of a script, each whatever the ones before it came to. -/
def run (host : Nat) (s : Machine) : List Step → List StepResult × Machine
  | [] => ([], s)
  | x :: xs =>
    let (r, t) := step host s x
    let (rs, u) := run host t xs
    (r :: rs, u)

end Script
end ScriptModel
