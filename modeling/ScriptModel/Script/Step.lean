import ScriptModel.Object.Callable
import ScriptModel.Object.Class
import ScriptModel.Exception
import ScriptModel.Property.Fragment

/-!
# Steps

A script is a list of steps, and so is the body of a scripted function. A step makes a
value, works on properties, invokes a function, converts a value or asks a question. There
are conditionals and no loops: what repeats in a script repeats through calls.
-/

namespace ScriptModel

/-- A position in the analysed program (`SourceLocation`). -/
structure Site where
  file : String
  line : Nat
  column : Nat
  deriving DecidableEq

def Site.text (s : Site) : String := s.file ++ ":" ++ s.line.repr ++ ":" ++ s.column.repr

/-- A fragment whose values are still operands. -/
structure Draft where
  kind : PropertyKind
  value : Option Operand
  writable : Option Bool
  getter : Option (Option Operand)
  setter : Option (Option Operand)
  enumerable : Option Bool
  configurable : Option Bool

/-- The making of a value. -/
inductive Creation (step : Type) where
  | object (cls : ObjectClass) (proto : Option Operand)
  | array (values : List Operand)
  | native (name : String) (arity : UInt32) (body : Routine step) (proto : Operand)
  | nativeConstructor (name : String) (arity : UInt32) (body construction : Routine step)
      (proto : Operand)
  | scripted (length : UInt32) (f : Scripted step)
  | bound (target self : Operand) (args : List Operand)

/-- Work on the properties of an object. -/
inductive Access where
  | get (on : Operand) (key : Key)
  | put (on : Operand) (key : Key) (value : Operand) (throws overrides : Bool)
  | define (on : Operand) (key : Key) (draft : Draft) (throws overrides : Bool)
  | delete (on : Operand) (key : Key) (throws : Bool)
  | preventExtensions (on : Operand)
  | setPrototype (on : Operand) (proto : Option Operand)

/-- Which built-ins a registration installs. -/
inductive Registration where
  | all
  | object
  | function

inductive Invocation where
  | call (f self : Operand) (args : List Operand)
  | construct (f : Operand) (args : List Operand)
  | hasInstance (f v : Operand)
  | instanceOf (v f : Operand)
  | method (on : Operand) (key : Key) (self : Operand) (args : List Operand)
  | builtin (b : Builtin) (self : Operand) (args : List Operand)
  | register (which : Registration)

/-- The order in which an object's conversion methods are tried (`PreferredType`). -/
inductive Hint where
  | default
  | number
  | string
  deriving DecidableEq

inductive Conversion where
  | toPrimitive (v : Operand) (hint : Hint)
  | toNumber (v : Operand)
  | toText (v : Operand)
  | toInteger (v : Operand)
  | toWord (v : Operand)

/-- A question that changes nothing. -/
inductive Inspection where
  | hasOwn (on : Operand) (key : Key)
  | hasProperty (on : Operand) (key : Key)
  | property (on : Operand) (key : Key)
  | propertyText (on : Operand) (key : Key)
  | sameProperty (on : Operand) (key : Key) (other : Operand) (otherKey : Key)
  | keys (on : Operand)
  | isExtensible (on : Operand)
  | prototype (on : Operand)
  | whole (on : Operand)
  | isConstructor (f : Operand)
  | testsInstances (f : Operand)
  | callable (f : Operand)
  | callDepth
  | toBoolean (v : Operand)
  | toDouble (v : Operand)
  | numberOfText (s : String)
  | typeName (v : Operand)
  | display (v : Operand)
  | representation (v : Operand)
  | kindName (v : Operand)
  | className (v : Operand)
  | isCallable (v : Operand)
  | isObject (v : Operand)
  | isKind (v : Operand) (kinds : List ValueKind)
  | anyUnknown (vs : List Operand)
  | same (a b : Operand)
  | strictEqual (a b : Operand)
  | sameForm (a b : Operand)
  | key (k : Key)
  | diagnostics

inductive Step where
  /-- Runs a step and keeps the value that it yields under a name. -/
  | keep (name : String) (step : Step)
  /-- Removes a name from the table. -/
  | forget (name : String)
  /-- Adds one to a named integer. -/
  | increment (name : String)
  | value (v : Operand)
  | create (c : Creation Step)
  | access (a : Access)
  | invoke (i : Invocation)
  | convert (c : Conversion)
  | inspect (i : Inspection)
  /-- Runs a step; an exception becomes a diagnostic, and the value `unknown`. -/
  | recover (site : Site) (step : Step)
  | record (kind : ErrorKind) (message : String) (site : Site)
  | clearDiagnostics
  | log (v : Operand)
  | raise (kind : ErrorKind) (message : String)
  /-- Compares strictly, and runs the steps for the outcome. -/
  | branch (a b : Operand) (equal different : List Step)

end ScriptModel
