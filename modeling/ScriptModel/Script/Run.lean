import ScriptModel.Script.Inspection
import ScriptModel.Builtin.Install
import ScriptModel.Operation.Instance

/-!
# Running steps

Each step runs in an activation, against an invoker for the functions that it calls, and
holds its operands meanwhile. After a step the prototype links to objects that nothing holds
any more are cut. The first step that raises ends the steps that it stands in.
-/

namespace ScriptModel

namespace Creation

def run (act : Activation) (c : Creation Step) : Run Value :=
  match c with
  | object cls proto => do
    let p ← Operand.resolveObject? act proto
    return .object (← Run.alloc (.ofClass cls p))
  | array xs => do
    let vs ← Operand.resolveAll act xs
    return .object (← Run.alloc (.array vs))
  | native name arity body proto => do
    let p ← proto.resolveObject act
    return .object (← Run.alloc (.native name arity (.routine body) (some p)))
  | nativeConstructor name arity body construction proto => do
    let p ← proto.resolveObject act
    let f : Native Step := ⟨name, arity, .routine body, some construction⟩
    return .object (← Run.alloc (.function (.native f) (some p)))
  | scripted length f => do
    return .object (← Run.alloc
      (.functionWithLength (.scripted f) length (some .functionPrototype)))
  | bound target self args => do
    let t ← target.resolveObject act
    let v ← self.resolve act
    let vs ← Operand.resolveAll act args
    return .object (← Run.alloc (.function (.bound ⟨t, v, vs⟩) (some .functionPrototype)))

end Creation

namespace Access

def run (inv : Invoker) (act : Activation) (a : Access) : Run Answer :=
  match a with
  | get x k => do
    let o ← x.resolveObject act
    return .value (← Run.holding [.object o] (inv.get o k))
  | put x k y throws overrides => do
    let o ← x.resolveObject act
    let v ← y.resolve act
    return .flag (← Run.holding [.object o] (inv.put o k v throws overrides))
  | define x k d throws overrides => do
    let o ← x.resolveObject act
    let f ← d.resolve act
    return .flag (← Run.define o k f throws overrides)
  | delete x k throws => do
    let o ← x.resolveObject act
    return .flag (← Run.delete o k throws)
  | preventExtensions x => do
    let o ← x.resolveObject act
    return .flag (← Run.preventExtensions o)
  | setPrototype x p => do
    let o ← x.resolveObject act
    let q ← Operand.resolveObject? act p
    return .flag (← Run.setPrototype o q)

end Access

namespace Invocation

def run (inv : Invoker) (act : Activation) (i : Invocation) : Run Answer :=
  match i with
  | call x y xs => do
    let f ← x.resolveObject act
    let self ← y.resolve act
    let args ← Operand.resolveAll act xs
    return .value (← inv.call f self args)
  | construct x xs => do
    let f ← x.resolveObject act
    let args ← Operand.resolveAll act xs
    return .value (.object (← inv.construct f args))
  | hasInstance x y => do
    let f ← x.resolveObject act
    let v ← y.resolve act
    return .flag (← inv.hasInstance f v)
  | instanceOf x y => do
    let v ← x.resolve act
    let f ← y.resolve act
    return .value (← inv.instanceOf v f)
  | method x k y xs => do
    let o ← x.resolveObject act
    let self ← y.resolve act
    let args ← Operand.resolveAll act xs
    Run.holding [.object o] do
      match ← Run.holding (self :: args) (inv.get o k) with
      | .object f => return .value (← inv.call f self args)
      | _ => Run.raise .notCallable
  | builtin b y xs => do
    let self ← y.resolve act
    let args ← Operand.resolveAll act xs
    return .value (← Run.holding [self] (b.run inv self args))
  | register which => do
    inv.register which
    return .flag true

end Invocation

namespace Conversion

def run (inv : Invoker) (act : Activation) (c : Conversion) : Run Answer :=
  match c with
  | toPrimitive x hint => do
    let v ← x.resolve act
    return .value (← inv.toPrimitive v hint)
  | toNumber x => do
    let v ← x.resolve act
    return .value (← inv.toNumber v)
  | toText x => do
    let v ← x.resolve act
    return .value (← inv.toText v)
  | toInteger x => do
    let v ← x.resolve act
    return .double (← inv.toInteger v)
  | toWord x => do
    let v ← x.resolve act
    return .count (← inv.toWord v).toNat

end Conversion

/-- One more than an integer; what is no integer becomes undetermined. -/
def Value.increment : Value → Value
  | number (.integer i) => number (.integer (i + 1))
  | _ => unknown

namespace Run

/-- Keeps the value that an answer yields, if it yields one. -/
def keep (name : String) (a : Answer) : Run Unit :=
  match a.value? with
  | some v => modify fun s => s.keep name v
  | none => pure ()

/-- Removes a name from the table; whether it was there. -/
def forget (name : String) : Run Bool := fun s =>
  (.done (s.named? name).isSome, s.forget name)

def increment (name : String) : Run Value := fun s =>
  let v := ((s.named? name).getD .unknown).increment
  (.done v, s.keep name v)

def record (d : Diagnostic) : Run Nat := fun s =>
  let ds := s.diagnostics ++ [d]
  (.done ds.length, { s with diagnostics := ds })

def clearDiagnostics : Run Unit := modify fun s => { s with diagnostics := [] }

def log (v : Value) : Run Unit := modify fun s => s.note (.logged v)

/-- The value of a computation, or `unknown` once its exception is recorded. -/
def recover (site : Site) (x : Run Value) : Run Value := do
  match ← x.attempt with
  | .ok v => return v
  | .error e => do
    let _ ← record (.ofException e site)
    return .unknown

end Run

mutual

/-- Runs one step. -/
def Step.run (inv : Invoker) (act : Activation) : Step → Run Answer
  | .keep name step => do
    let a ← step.run inv act
    Run.keep name a
    return a
  | .forget name => do return .flag (← Run.forget name)
  | .increment name => do return .value (← Run.increment name)
  | .value x => do return .value (← x.resolve act)
  | .create c => do return .value (← c.run act)
  | .access a => a.run inv act
  | .invoke i => i.run inv act
  | .convert c => c.run inv act
  | .inspect i => i.run act
  | .recover site step => do
    return .value (← Run.recover site do
      let a ← step.run inv act
      return a.value?.getD .unknown)
  | .record kind message site => do return .count (← Run.record ⟨site, kind, message⟩)
  | .clearDiagnostics => do
    Run.clearDiagnostics
    return .nothing
  | .log x => do
    Run.log (← x.resolve act)
    return .nothing
  | .raise kind message => Run.raise (.thrown kind message)
  | .branch x y equal different => do
    let v ← x.resolve act
    let w ← y.resolve act
    if v.strictEqual w then
      Step.runAll inv act equal
      return .flag true
    else
      Step.runAll inv act different
      return .flag false

/-- Runs steps in order, until one raises. -/
def Step.runAll (inv : Invoker) (act : Activation) : List Step → Run Unit
  | [] => pure ()
  | step :: steps => do
    let _ ← Run.swept (fun _ => []) (step.run inv act)
    Step.runAll inv act steps

end

/-- Runs a body, which holds its arguments. -/
def Routine.run (inv : Invoker) (self : Value) (args : List Value) (r : Routine Step) :
    Run Value :=
  Run.holding args <| Run.contained do
    Step.runAll inv ⟨self, args⟩ r.steps
    r.result.resolve ⟨self, args⟩

end ScriptModel
