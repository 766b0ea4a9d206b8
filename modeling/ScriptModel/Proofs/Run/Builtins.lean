import ScriptModel.Proofs.Run.Operations

/-!
# Congruences and built-ins

The built-in behaviours and their installation, for two invokers that a congruence relates.
A failed installation is no exception and no primitive, so what can install asks for the
relation of failures separately.
-/

namespace ScriptModel
namespace Run.Congruence

variable {R : (α : Type) → Run α → Run α → Prop} (hR : Congruence R)
  {inv inv' : Invoker} (hinv : Invoker.Corresponds R inv inv')
include hR

theorem requireCoercible (self : Value) :
    R Unit (Run.requireCoercible self) (Run.requireCoercible self) := by
  unfold Run.requireCoercible
  split
  · exact hR.pure ()
  · exact hR.raise _

theorem gated (self : Value) (args : List Value) {x y : Run Value} (hx : R Value x y) :
    R Value (Run.gated self args x) (Run.gated self args y) := by
  unfold Run.gated
  split
  · exact hR.pure _
  · exact hx

theorem callee (self : Value) : R Address (Builtin.callee self) (Builtin.callee self) := by
  cases self with
  | object f =>
    refine hR.bind (hR.isCallable _) fun b => ?_
    cases b
    · exact hR.raise _
    · exact hR.pure f
  | _ => exact hR.raise _

theorem describe (self : Value) : R Value (Builtin.describe self) (Builtin.describe self) :=
  hR.onHeap fun h => Value.string ("[object " ++ self.tag h ++ "]")

theorem ownValue (self : Value) : R Value (Builtin.ownValue self) (Builtin.ownValue self) :=
  hR.bind (hR.requireCoercible self) fun _ => hR.pure self

theorem isAbove (self : Value) (args : List Value) :
    R Value (Builtin.isAbove self args) (Builtin.isAbove self args) := by
  unfold Builtin.isAbove
  split
  · refine hR.bind (hR.requireCoercible self) fun _ => ?_
    cases self with
    | object o => exact hR.onHeap _
    | _ => exact hR.pure _
  · exact hR.pure _

theorem describeFunction (self : Value) :
    R Value (Builtin.describeFunction self) (Builtin.describeFunction self) := by
  cases self with
  | object f =>
    refine hR.bind (hR.object f) fun o => ?_
    split
    · exact hR.describe _
    · exact hR.raise _
  | _ => exact hR.raise _

include hinv

/-! ## The methods of Object.prototype -/

theorem localeText (self : Value) (args : List Value) :
    R Value (Builtin.localeText inv self args) (Builtin.localeText inv' self args) := by
  refine hR.holding _ (hR.bind (hR.requireCoercible self) fun _ => ?_)
  cases self with
  | object o =>
    refine hR.bind (hR.get hinv o .toStringMethod) fun method => ?_
    cases method with
    | unknown => exact hR.pure _
    | object f =>
      refine hR.bind (hR.isCallable _) fun b => ?_
      cases b
      · exact hR.raise _
      · exact hR.call hinv f _ []
    | _ => exact hR.raise _
  | _ => exact hR.toText hinv _

theorem askOwn (self : Value) (args : List Value) (question : Object → Key → Bool) :
    R Value (Builtin.askOwn inv self args question)
      (Builtin.askOwn inv' self args question) := by
  refine hR.holding _ (hR.bind (hR.toKey hinv _) fun k => ?_)
  cases k with
  | none => exact hR.pure _
  | some k =>
    refine hR.bind (hR.requireCoercible self) fun _ => ?_
    cases self with
    | object o => exact hR.onHeap _
    | _ => exact hR.pure _

/-! ## The methods of Function.prototype -/

theorem elements (list : Address) (i n : Nat) :
    R (List Value) (Builtin.elements inv list i n) (Builtin.elements inv' list i n) := by
  induction n generalizing i with
  | zero => exact hR.pure []
  | succ n ih =>
    exact hR.bind (hR.get hinv list _) fun v => hR.map (hR.holding [v] (ih (i + 1))) _

theorem elements? (list : Address) :
    R (Option (List Value)) (Builtin.elements? inv list) (Builtin.elements? inv' list) := by
  refine hR.bind (hR.get hinv list .length) fun length => ?_
  refine hR.holding _ (hR.bind (hR.toNumber hinv length) fun number => ?_)
  split
  · exact hR.pure none
  · refine hR.bind (hR.toWord hinv number) fun n => ?_
    refine hR.bind (hR.primitive (.checkArguments _)) fun _ => ?_
    exact hR.map (hR.elements hinv list 0 _) some

theorem applyList (args : List Value) (f list : Address) :
    R Value (Builtin.applyList inv args f list) (Builtin.applyList inv' args f list) := by
  refine hR.bind (hR.swept _ (hR.holding _ (hR.elements? hinv list))) fun vs => ?_
  cases vs with
  | none => exact hR.pure _
  | some vs => exact hR.holding _ (hR.call hinv f _ vs)

theorem applyTo (self : Value) (args : List Value) :
    R Value (Builtin.applyTo inv self args) (Builtin.applyTo inv' self args) := by
  refine hR.bind (hR.callee self) fun f => ?_
  cases Builtin.argument args 1 with
  | undefined => exact hR.holding _ (hR.call hinv f _ [])
  | null => exact hR.holding _ (hR.call hinv f _ [])
  | object list => exact hR.applyList hinv args f list
  | _ => exact hR.raise _

theorem callWith (self : Value) (args : List Value) :
    R Value (Builtin.callWith inv self args) (Builtin.callWith inv' self args) :=
  hR.bind (hR.callee self) fun f => hR.call hinv f _ _

theorem remainingLength (target : Address) (taken : Nat) :
    R Value (Builtin.remainingLength inv target taken)
      (Builtin.remainingLength inv' target taken) := by
  refine hR.bind (hR.object target) fun o => ?_
  split
  · exact hR.pure _
  · refine hR.bind (hR.get hinv target .length) fun v => ?_
    refine hR.bind (hR.toNumber hinv v) fun length => ?_
    split
    · exact hR.pure _
    · exact hR.map (hR.toInteger hinv length) _

theorem bindTo (self : Value) (args : List Value) :
    R Value (Builtin.bindTo inv self args) (Builtin.bindTo inv' self args) := by
  refine hR.bind (hR.callee self) fun target => ?_
  refine hR.bind (hR.holding _ (hR.remainingLength hinv target _)) fun length => ?_
  exact hR.map (hR.alloc _) _

/-- A built-in behaviour. -/
theorem builtin (b : Builtin) (self : Value) (args : List Value) :
    R Value (b.run inv self args) (b.run inv' self args) := by
  cases b with
  | objectToString => exact hR.gated self args (hR.describe self)
  | toLocaleString => exact hR.gated self args (hR.localeText hinv self args)
  | valueOf => exact hR.gated self args (hR.ownValue self)
  | hasOwnProperty => exact hR.gated self args (hR.askOwn hinv self args _)
  | isPrototypeOf => exact hR.gated self args (hR.isAbove self args)
  | propertyIsEnumerable => exact hR.gated self args (hR.askOwn hinv self args _)
  | functionToString => exact hR.gated self args (hR.describeFunction self)
  | apply => exact hR.gated self args (hR.applyTo hinv self args)
  | call => exact hR.gated self args (hR.callWith hinv self args)
  | bind => exact hR.gated self args (hR.bindTo hinv self args)
  | idle => exact hR.pure _
  | throwTypeError => exact hR.raise _

/-! ## Installation -/

variable (habort : ∀ f : InstallFailure, R Unit (Run.abort f) (Run.abort f))
include habort

theorem installMethod (host : Host) (m : Method) :
    R Unit (inv.installMethod host m) (inv'.installMethod host m) := by
  refine hR.swept _ (hR.bind (hR.alloc _) fun f => ?_)
  refine hR.bind (hR.attempt (hR.put hinv host.address _ _ false true)) fun stored => ?_
  match stored with
  | .ok true => exact hR.pure ()
  | .ok false => exact habort _
  | .error _ => exact habort _

theorem installAll (host : Host) (ms : List Method) :
    R Unit (inv.installAll host ms) (inv'.installAll host ms) := by
  induction ms with
  | nil => exact hR.pure ()
  | cons m ms ih => exact hR.bind (hR.installMethod hinv habort host m) fun _ => ih

theorem register (which : Registration) :
    R Unit (inv.register which) (inv'.register which) := by
  cases which with
  | object => exact hR.installAll hinv habort .object _
  | function => exact hR.installAll hinv habort .function _
  | all =>
    exact hR.bind (hR.installAll hinv habort .object _) fun _ =>
      hR.installAll hinv habort .function _

end Run.Congruence
end ScriptModel
