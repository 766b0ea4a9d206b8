/-!
# Classes of objects
-/

namespace ScriptModel

/-- The class tag of an object. -/
inductive ObjectClass where
  | object
  | function
  | array
  | error
  | arguments
  deriving DecidableEq, Inhabited

def ObjectClass.name : ObjectClass → String
  | object => "Object"
  | function => "Function"
  | array => "Array"
  | error => "Error"
  | arguments => "Arguments"

end ScriptModel
