import ScriptModel.Object.Basic
import ScriptModel.Diagnostic

/-!
# Answers

What a step tells. Most steps yield a value; questions are answered in the form that they
ask for.
-/

namespace ScriptModel

inductive Answer where
  | nothing
  | value (v : Value)
  | flag (b : Bool)
  | flag? (b : Option Bool)
  | count (n : Nat)
  | text (s : String)
  | text? (s : Option String)
  | double (x : Binary64)
  | key (k : Key)
  | keys (ks : List Key)
  | property (p : Option Property)
  | callable (c : Option (Callable Step))
  | object (o : Object)
  | diagnostics (ds : List Diagnostic)

/-- The value that a step yields, if it yields one. A plain yes or no is a boolean. -/
def Answer.value? : Answer → Option Value
  | value v => some v
  | flag b => some (.boolean b)
  | _ => none

end ScriptModel
