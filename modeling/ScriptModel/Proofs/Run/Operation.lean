import ScriptModel.Proofs.Run.Serving

/-!
# Operations by name

What can be asked of a machine from outside: the three requests, the two property accesses
that run functions, the conversions, the instance test and the built-in methods. A statement
about all of them is a statement about `Operation.run`.
-/

namespace ScriptModel

/-- An operation with its operands. -/
inductive Operation where
  | call (f : Address) (self : Value) (args : List Value)
  | construct (f : Address) (args : List Value)
  | hasInstance (f : Address) (v : Value)
  | get (o : Address) (k : Key)
  | put (o : Address) (k : Key) (v : Value) (throws overrides : Bool)
  | toPrimitive (v : Value) (hint : Hint)
  | toNumber (v : Value)
  | toText (v : Value)
  | toInteger (v : Value)
  | toWord (v : Value)
  | instanceOf (v f : Value)
  | builtin (b : Builtin) (self : Value) (args : List Value)

/-- Runs an operation; its result is an answer. -/
def Operation.run (inv : Invoker) : Operation → Run Answer
  | call f self args => do return .value (← inv.call f self args)
  | construct f args => do return .value (.object (← inv.construct f args))
  | hasInstance f v => do return .flag (← inv.hasInstance f v)
  | get o k => do return .value (← inv.get o k)
  | put o k v throws overrides => do return .flag (← inv.put o k v throws overrides)
  | toPrimitive v hint => do return .value (← inv.toPrimitive v hint)
  | toNumber v => do return .value (← inv.toNumber v)
  | toText v => do return .value (← inv.toText v)
  | toInteger v => do return .double (← inv.toInteger v)
  | toWord v => do return .count (← inv.toWord v).toNat
  | instanceOf v f => do return .value (← inv.instanceOf v f)
  | builtin b self args => do return .value (← b.run inv self args)

/-- Related invokers run every operation alike. -/
theorem Run.Congruence.operation {R : (α : Type) → Run α → Run α → Prop}
    (hR : Run.Congruence R) {inv inv' : Invoker} (hinv : Invoker.Corresponds R inv inv')
    (op : Operation) : R Answer (op.run inv) (op.run inv') := by
  cases op with
  | call f self args => exact hR.map (hR.call hinv f self args) _
  | construct f args => exact hR.map (hR.construct hinv f args) _
  | hasInstance f v => exact hR.map (hR.hasInstance hinv f v) _
  | get o k => exact hR.map (hR.get hinv o k) _
  | put o k v throws overrides => exact hR.map (hR.put hinv o k v throws overrides) _
  | toPrimitive v hint => exact hR.map (hR.toPrimitive hinv v hint) _
  | toNumber v => exact hR.map (hR.toNumber hinv v) _
  | toText v => exact hR.map (hR.toText hinv v) _
  | toInteger v => exact hR.map (hR.toInteger hinv v) _
  | toWord v => exact hR.map (hR.toWord hinv v) _
  | instanceOf v f => exact hR.map (hR.instanceOf hinv v f) _
  | builtin b self args => exact hR.map (hR.builtin hinv b self args) _

end ScriptModel
