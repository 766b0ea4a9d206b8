import ScriptModel.Proofs.Run.Congruence

/-!
# Congruences and operations

Two invokers that a congruence relates give related property accesses, conversions, instance
tests and built-ins. Every operation has one lemma, which follows its definition and cites
those of what it calls.
-/

namespace ScriptModel

/-- The invokers answer every request alike, in the sense of a relation between
computations. -/
def Invoker.Corresponds (R : (α : Type) → Run α → Run α → Prop)
    (inv inv' : Invoker) : Prop :=
  ∀ r : Request, R r.Reply (inv r) (inv' r)

namespace Run.Congruence

variable {R : (α : Type) → Run α → Run α → Prop} (hR : Congruence R)
  {inv inv' : Invoker} (hinv : Invoker.Corresponds R inv inv')
include hR

/-! ## Invocation and properties -/

theorem isCallable (v : Value) : R Bool (Run.isCallable v) (Run.isCallable v) := by
  cases v with
  | object a => exact hR.onHeap fun h => (h.get a).isCallable
  | _ => exact hR.pure false

include hinv

theorem call (f : Address) (self : Value) (args : List Value) :
    R Value (inv.call f self args) (inv'.call f self args) :=
  hR.holding _ (hinv (.call f self args))

theorem construct (f : Address) (args : List Value) :
    R Address (inv.construct f args) (inv'.construct f args) :=
  hR.holding _ (hinv (.construct f args))

theorem hasInstance (f : Address) (v : Value) :
    R Bool (inv.hasInstance f v) (inv'.hasInstance f v) :=
  hR.holding _ (hinv (.hasInstance f v))

theorem access (o holder : Address) (a : AccessorProperty) (f : Address)
    (args : List Value) :
    R Value (inv.access o holder a f args) (inv'.access o holder a f args) :=
  hR.holding _ (hR.call hinv f _ args)

theorem get (o : Address) (k : Key) : R Value (inv.get o k) (inv'.get o k) := by
  refine hR.bind (hR.onHeap _) fun found => ?_
  match found with
  | none => exact hR.pure _
  | some (_, .data d) => exact hR.pure _
  | some (holder, .accessor a) =>
    dsimp only
    cases a.getter with
    | none => exact hR.pure _
    | some g => exact hR.swept _ (hR.access hinv o holder a g [])

theorem put (o : Address) (k : Key) (v : Value) (throws overrides : Bool) :
    R Bool (inv.put o k v throws overrides) (inv'.put o k v throws overrides) := by
  refine hR.bind (hR.onHeap _) fun found => ?_
  match found with
  | none => exact hR.add o k v throws overrides
  | some (holder, .accessor a) =>
    dsimp only
    cases a.setter with
    | none => exact hR.reject throws _
    | some f => exact hR.swept _ (hR.map (hR.access hinv o holder a f [v]) _)
  | some (holder, .data d) =>
    dsimp only
    split
    · split
      · exact hR.primitive (.define ..)
      · exact hR.reject throws _
    · split
      · exact hR.reject throws _
      · exact hR.add o k v throws overrides

/-! ## Conversions and instance tests -/

theorem primitiveBy? (o : Address) (k : Key) :
    R (Option Value) (inv.primitiveBy? o k) (inv'.primitiveBy? o k) := by
  refine hR.bind (hR.get hinv o k) fun method => ?_
  cases method with
  | unknown => exact hR.pure _
  | object f =>
    refine hR.bind (hR.isCallable _) fun b => ?_
    cases b with
    | false => exact hR.pure _
    | true => exact hR.map (hR.call hinv f _ _) _
  | _ => exact hR.pure _

theorem firstPrimitive (o : Address) (ks : List Key) :
    R Value (inv.firstPrimitive o ks) (inv'.firstPrimitive o ks) := by
  induction ks with
  | nil => exact hR.raise _
  | cons k ks ih =>
    refine hR.bind (hR.swept _ (hR.primitiveBy? hinv o k)) fun v => ?_
    cases v with
    | some v => exact hR.pure v
    | none => exact ih

theorem toPrimitive (v : Value) (hint : Hint) :
    R Value (inv.toPrimitive v hint) (inv'.toPrimitive v hint) := by
  cases v with
  | object o => exact hR.holding _ (hR.firstPrimitive hinv o _)
  | _ => exact hR.pure _

theorem toNumber (v : Value) : R Value (inv.toNumber v) (inv'.toNumber v) :=
  hR.map (hR.toPrimitive hinv v .number) _

theorem toText (v : Value) : R Value (inv.toText v) (inv'.toText v) :=
  hR.map (hR.toPrimitive hinv v .string) _

theorem numberFor (operation : String) (v : Value) :
    R Number (inv.numberFor operation v) (inv'.numberFor operation v) := by
  refine hR.bind (hR.toNumber hinv v) fun w => ?_
  cases w with
  | number n => exact hR.pure n
  | _ => exact hR.raise _

theorem toInteger (v : Value) : R Binary64 (inv.toInteger v) (inv'.toInteger v) :=
  hR.map (hR.numberFor hinv _ v) _

theorem toWord (v : Value) : R UInt32 (inv.toWord v) (inv'.toWord v) :=
  hR.map (hR.numberFor hinv _ v) _

theorem toKey (v : Value) : R (Option Key) (inv.toKey v) (inv'.toKey v) := by
  refine hR.bind (hR.toText hinv v) fun w => ?_
  cases w with
  | string s => exact hR.pure _
  | _ => exact hR.pure _

theorem testInstance (f : Address) (v : Value) :
    R Bool (inv.testInstance f v) (inv'.testInstance f v) := by
  cases v with
  | object a =>
    refine hR.bind (hR.get hinv f .prototype) fun p => ?_
    cases p with
    | object p => exact hR.onHeap _
    | _ => exact hR.raise _
  | _ => exact hR.pure false

theorem instanceOf (v f : Value) : R Value (inv.instanceOf v f) (inv'.instanceOf v f) := by
  unfold Invoker.instanceOf
  split
  · exact hR.pure _
  · cases f with
    | object a => exact hR.map (hR.hasInstance hinv a v) _
    | _ => exact hR.raise _

end Run.Congruence
end ScriptModel
