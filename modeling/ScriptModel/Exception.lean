import ScriptModel.Property.Key

/-!
# Exceptions

An exception is its cause. `Exception.kind` is the kind that a script sees and
`Exception.message` the wording; no other module words an exception.
-/

namespace ScriptModel

/-- The kinds of native exceptions. -/
inductive ErrorKind where
  | referenceError
  | typeError
  | rangeError
  | syntaxError
  deriving DecidableEq, Inhabited

namespace ErrorKind

def name : ErrorKind → String
  | referenceError => "ReferenceError"
  | typeError => "TypeError"
  | rangeError => "RangeError"
  | syntaxError => "SyntaxError"

/-- The kind inside a sentence. -/
def phrase : ErrorKind → String
  | referenceError => "reference error"
  | typeError => "type error"
  | rangeError => "range error"
  | syntaxError => "syntax error"

end ErrorKind

/-- Why an operation failed (`JErrorType`). -/
inductive Exception where
  /-- A script raised it. -/
  | thrown (kind : ErrorKind) (message : String)
  /-- The limit on nested calls is reached. -/
  | depthExceeded
  /-- A list of arguments is longer than the limit. -/
  | tooManyArguments
  /-- The value called has no call behaviour. -/
  | notCallable
  /-- The object constructed with is no function. -/
  | notConstructor
  /-- A scripted function without a construct behaviour. -/
  | functionNotConstructor
  /-- A native function without a construct behaviour. -/
  | nativeNotConstructor (name : String)
  /-- A bound function whose target has no construct behaviour. -/
  | boundNotConstructor
  /-- The right-hand side of an instance test is no object. -/
  | notInstanceTarget
  /-- The right-hand side of an instance test cannot test. -/
  | noInstanceTest
  /-- A bound function whose target cannot test. -/
  | boundNoInstanceTest
  /-- The function's `prototype` is no object. -/
  | prototypeNotObject
  /-- Neither conversion method yields a primitive value. -/
  | noPrimitive
  /-- A number was required of an undetermined value, by the named operation. -/
  | undetermined (operation : String)
  /-- A receiver that stands for no object. -/
  | notCoercible
  /-- The `toString` found is not callable. -/
  | toStringNotCallable
  /-- The receiver is not of class Function. -/
  | notFunction
  /-- The list of arguments is no object. -/
  | argumentsNotObject
  /-- `caller` and `arguments` of a bound function. -/
  | restricted
  /-- A new property on an object that takes none, by definition. -/
  | cannotDefine (key : Key)
  /-- A change that the property's lock forbids. -/
  | cannotRedefine (key : Key)
  /-- A new property on an object that takes none, by assignment. -/
  | cannotAdd (key : Key)
  /-- An assignment to a property that is not writable. -/
  | readOnly (key : Key)
  /-- An assignment to an accessor without a setter. -/
  | getterOnly (key : Key)
  /-- A deletion of a property that is not configurable. -/
  | cannotDelete (key : Key)
  /-- A built-in that was refused without an exception. -/
  | notStored
  /-- An operation on a property of something that is no object. -/
  | notObject
  deriving DecidableEq, Inhabited

namespace Exception

def kind : Exception → ErrorKind
  | thrown k _ => k
  | depthExceeded => .rangeError
  | tooManyArguments => .rangeError
  | _ => .typeError

def message : Exception → String
  | thrown _ m => m
  | depthExceeded => "Maximum call stack size exceeded"
  | tooManyArguments => "Too many arguments in function call"
  | notCallable => "Attempted to call non-callable value"
  | notConstructor => "Object is not a constructor"
  | functionNotConstructor => "Function is not a constructor"
  | nativeNotConstructor n => n ++ " is not a constructor"
  | boundNotConstructor => "Bind target does not have a constructor"
  | notInstanceTarget => "Right-hand side of 'instanceof' is not callable"
  | noInstanceTest => "Object does not have a hasInstance method"
  | boundNoInstanceTest => "Bind target does not have a hasInstance method"
  | prototypeNotObject => "Function has non-object prototype in instanceof check"
  | noPrimitive => "Cannot convert object to primitive value"
  | undetermined op => op ++ " is not defined for an unknown value"
  | notCoercible => "Cannot convert undefined or null to object"
  | toStringNotCallable => "toString is not a function"
  | notFunction => "Cannot invoke non-function type"
  | argumentsNotObject => "Arguments value is not an object"
  | restricted =>
    "'caller' and 'arguments' are restricted function properties and cannot be accessed " ++
      "in this context"
  | cannotDefine k => "Cannot define property " ++ k.text ++ ", object is not extensible"
  | cannotRedefine k => "Cannot redefine property: " ++ k.text
  | cannotAdd k => "Cannot add property " ++ k.text ++ ", object is not extensible"
  | readOnly k => "Cannot assign to read only property '" ++ k.text ++ "'"
  | getterOnly k => "Cannot set property " ++ k.text ++ " which has only a getter"
  | cannotDelete k => "Cannot delete property '" ++ k.text ++ "'"
  | notStored => "property was not stored"
  | notObject => "Operand is not an object"

/-- The report of an exception that nothing caught. -/
def report (e : Exception) : String :=
  "Uncaught " ++ e.kind.phrase ++ ": " ++ e.message ++ "."

end Exception

/-- A built-in that could not be installed (`BootstrapError`): where, under which name, and
why. -/
structure InstallFailure where
  target : String
  property : String
  cause : Exception
  deriving DecidableEq

/-- The report of a failed installation. -/
def InstallFailure.report (f : InstallFailure) : String :=
  "failed to install '" ++ f.property ++ "' on " ++ f.target ++ ": " ++ f.cause.report

end ScriptModel
