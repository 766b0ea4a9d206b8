import ScriptModel.Proofs.Run.Builtins
import ScriptModel.Dispatch

/-!
# Congruences and steps

Steps, bodies and what a frame runs, for two invokers that a congruence relates. The
induction is on the step and the list of steps together; every other construct is a case of
its own lemma.
-/

namespace ScriptModel

/-- What is resolved of a part of a draft that may be absent. -/
def Draft.resolvePart {α β : Type} (f : β → Run α) : Option β → Run (Option α)
  | none => pure none
  | some x => do return some (← f x)

/-- The parts of a draft are resolved one after the other. -/
theorem Draft.resolve_eq (act : Activation) (d : Draft) :
    d.resolve act = (do
      let value ← Draft.resolvePart (Operand.resolve act) d.value
      let getter ← Draft.resolvePart (Operand.resolveObject? act) d.getter
      let setter ← Draft.resolvePart (Operand.resolveObject? act) d.setter
      return ⟨d.kind, value, d.writable, getter, setter, d.enumerable, d.configurable⟩) := by
  unfold Draft.resolve
  cases d.value <;> cases d.getter <;> cases d.setter <;>
    simp [Draft.resolvePart]

namespace Run.Congruence

variable {R : (α : Type) → Run α → Run α → Prop} (hR : Congruence R)
  {inv inv' : Invoker} (hinv : Invoker.Corresponds R inv inv') (act : Activation)
include hR

/-! ## Operands -/

theorem resolve (x : Operand) : R Value (x.resolve act) (x.resolve act) := by
  cases x with
  | named name =>
    exact hR.primitive (.aside fun ns ds => ((ns.lookup name).getD .unknown, ns, ds))
  | argumentArray => exact hR.map (hR.alloc _) _
  | _ => exact hR.pure _

theorem resolveAll (xs : List Operand) :
    R (List Value) (Operand.resolveAll act xs) (Operand.resolveAll act xs) := by
  induction xs with
  | nil => exact hR.pure []
  | cons x xs ih => exact hR.bind (hR.resolve act x) fun v => hR.map ih _

theorem resolveObject (x : Operand) :
    R Address (x.resolveObject act) (x.resolveObject act) := by
  refine hR.bind (hR.resolve act x) fun v => ?_
  cases v with
  | object a => exact hR.pure a
  | _ => exact hR.raise _

theorem resolveObject? (x : Option Operand) :
    R (Option Address) (Operand.resolveObject? act x) (Operand.resolveObject? act x) := by
  cases x with
  | none => exact hR.pure none
  | some x => exact hR.map (hR.resolveObject act x) some

/-- A part of a draft that may be absent. -/
theorem resolvePart {α β : Type} {f : β → Run α} (hf : ∀ x, R α (f x) (f x))
    (x : Option β) : R (Option α) (Draft.resolvePart f x) (Draft.resolvePart f x) := by
  cases x with
  | none => exact hR.pure none
  | some x => exact hR.map (hf x) some

theorem resolveDraft (d : Draft) : R Fragment (d.resolve act) (d.resolve act) := by
  rw [Draft.resolve_eq]
  exact hR.bind (hR.resolvePart (hR.resolve act) _) fun value =>
    hR.bind (hR.resolvePart (hR.resolveObject? act) _) fun getter =>
      hR.map (hR.resolvePart (hR.resolveObject? act) _) _

/-! ## Single steps -/

theorem create (c : Creation Step) : R Value (c.run act) (c.run act) := by
  cases c with
  | object cls proto =>
    exact hR.bind (hR.resolveObject? act proto) fun p => hR.map (hR.alloc _) _
  | array xs => exact hR.bind (hR.resolveAll act xs) fun vs => hR.map (hR.alloc _) _
  | native name arity body proto =>
    exact hR.bind (hR.resolveObject act proto) fun p => hR.map (hR.alloc _) _
  | nativeConstructor name arity body construction proto =>
    exact hR.bind (hR.resolveObject act proto) fun p => hR.map (hR.alloc _) _
  | scripted length f => exact hR.map (hR.alloc _) _
  | bound target self args =>
    exact hR.bind (hR.resolveObject act target) fun t => hR.bind (hR.resolve act self) fun v =>
      hR.bind (hR.resolveAll act args) fun vs => hR.map (hR.alloc _) _

theorem ask (x : Operand) (f : Heap → Object → Answer) :
    R Answer (Inspection.ask act x f) (Inspection.ask act x f) :=
  hR.bind (hR.resolveObject act x) fun _ => hR.onHeap _

theorem askValue (x : Operand) (f : Heap → Value → Answer) :
    R Answer (Inspection.askValue act x f) (Inspection.askValue act x f) :=
  hR.bind (hR.resolve act x) fun _ => hR.onHeap _

theorem askBoth (x y : Operand) (f : Value → Value → Bool) :
    R Answer (Inspection.askBoth act x y f) (Inspection.askBoth act x y f) :=
  hR.bind (hR.resolve act x) fun _ => hR.map (hR.resolve act y) _

theorem inspect (i : Inspection) : R Answer (i.run act) (i.run act) := by
  unfold Inspection.run
  cases i with
  | hasProperty x k => exact hR.bind (hR.resolveObject act x) fun a => hR.onHeap _
  | sameProperty x k y l =>
    exact hR.bind (hR.resolveObject act x) fun a =>
      hR.bind (hR.resolveObject act y) fun b => hR.onHeap _
  | callDepth => exact hR.primitive (.onDepth Answer.count)
  | anyUnknown xs => exact hR.map (hR.resolveAll act xs) _
  | diagnostics => exact hR.primitive (.aside fun ns ds => (Answer.diagnostics ds, ns, ds))
  | numberOfText s => exact hR.pure _
  | key k => exact hR.pure _
  | same x y => exact hR.askBoth act x y _
  | strictEqual x y => exact hR.askBoth act x y _
  | sameForm x y => exact hR.askBoth act x y _
  | hasOwn x k => exact hR.ask act x _
  | property x k => exact hR.ask act x _
  | propertyText x k => exact hR.ask act x _
  | keys x => exact hR.ask act x _
  | isExtensible x => exact hR.ask act x _
  | prototype x => exact hR.ask act x _
  | whole x => exact hR.ask act x _
  | isConstructor x => exact hR.ask act x _
  | testsInstances x => exact hR.ask act x _
  | callable x => exact hR.ask act x _
  | toBoolean x => exact hR.askValue act x _
  | toDouble x => exact hR.askValue act x _
  | typeName x => exact hR.askValue act x _
  | display x => exact hR.askValue act x _
  | representation x => exact hR.askValue act x _
  | kindName x => exact hR.askValue act x _
  | className x => exact hR.askValue act x _
  | isCallable x => exact hR.askValue act x _
  | isObject x => exact hR.askValue act x _
  | isKind x ks => exact hR.askValue act x _

/-! ## Names and diagnostics -/

theorem keep (name : String) (a : Answer) : R Unit (Run.keep name a) (Run.keep name a) := by
  unfold Run.keep
  cases a.value? with
  | none => exact hR.pure ()
  | some v =>
    exact hR.primitive (.aside fun ns ds =>
      ((), (name, v) :: ns.filter (fun e => decide (e.1 ≠ name)), ds))

theorem forget (name : String) : R Bool (Run.forget name) (Run.forget name) :=
  hR.primitive (.aside fun ns ds =>
    ((ns.lookup name).isSome, ns.filter (fun e => decide (e.1 ≠ name)), ds))

theorem increment (name : String) : R Value (Run.increment name) (Run.increment name) :=
  hR.primitive (.aside fun ns ds =>
    let v := ((ns.lookup name).getD .unknown).increment
    (v, (name, v) :: ns.filter (fun e => decide (e.1 ≠ name)), ds))

theorem record (d : Diagnostic) : R Nat (Run.record d) (Run.record d) :=
  hR.primitive (.aside fun ns ds => ((ds ++ [d]).length, ns, ds ++ [d]))

theorem recover (site : Site) {x y : Run Value} (hx : R Value x y) :
    R Value (Run.recover site x) (Run.recover site y) := by
  refine hR.bind (hR.attempt hx) fun r => ?_
  cases r with
  | ok v => exact hR.pure v
  | error e => exact hR.map (hR.record _) _

include hinv

theorem accessStep (a : Access) : R Answer (a.run inv act) (a.run inv' act) := by
  cases a with
  | get x k =>
    exact hR.bind (hR.resolveObject act x) fun o => hR.map (hR.holding _ (hR.get hinv o k)) _
  | put x k y throws overrides =>
    exact hR.bind (hR.resolveObject act x) fun o => hR.bind (hR.resolve act y) fun v =>
      hR.map (hR.holding _ (hR.put hinv o k v throws overrides)) _
  | define x k d throws overrides =>
    exact hR.bind (hR.resolveObject act x) fun o => hR.bind (hR.resolveDraft act d) fun f =>
      hR.map (hR.primitive (.define ..)) _
  | delete x k throws =>
    exact hR.bind (hR.resolveObject act x) fun o => hR.map (hR.primitive (.delete ..)) _
  | preventExtensions x =>
    exact hR.bind (hR.resolveObject act x) fun o =>
      hR.map (hR.primitive (.preventExtensions ..)) _
  | setPrototype x p =>
    exact hR.bind (hR.resolveObject act x) fun o => hR.bind (hR.resolveObject? act p) fun q =>
      hR.map (hR.primitive (.setPrototype ..)) _

theorem convert (c : Conversion) : R Answer (c.run inv act) (c.run inv' act) := by
  cases c with
  | toPrimitive x hint =>
    exact hR.bind (hR.resolve act x) fun v => hR.map (hR.toPrimitive hinv v hint) _
  | toNumber x => exact hR.bind (hR.resolve act x) fun v => hR.map (hR.toNumber hinv v) _
  | toText x => exact hR.bind (hR.resolve act x) fun v => hR.map (hR.toText hinv v) _
  | toInteger x => exact hR.bind (hR.resolve act x) fun v => hR.map (hR.toInteger hinv v) _
  | toWord x => exact hR.bind (hR.resolve act x) fun v => hR.map (hR.toWord hinv v) _

variable (habort : ∀ f : InstallFailure, R Unit (Run.abort f) (Run.abort f))
include habort

theorem invoke (i : Invocation) : R Answer (i.run inv act) (i.run inv' act) := by
  cases i with
  | call x y xs =>
    exact hR.bind (hR.resolveObject act x) fun f => hR.bind (hR.resolve act y) fun self =>
      hR.bind (hR.resolveAll act xs) fun args => hR.map (hR.call hinv f self args) _
  | construct x xs =>
    exact hR.bind (hR.resolveObject act x) fun f => hR.bind (hR.resolveAll act xs) fun args =>
      hR.map (hR.construct hinv f args) _
  | hasInstance x y =>
    exact hR.bind (hR.resolveObject act x) fun f => hR.bind (hR.resolve act y) fun v =>
      hR.map (hR.hasInstance hinv f v) _
  | instanceOf x y =>
    exact hR.bind (hR.resolve act x) fun v => hR.bind (hR.resolve act y) fun f =>
      hR.map (hR.instanceOf hinv v f) _
  | method x k y xs =>
    refine hR.bind (hR.resolveObject act x) fun o => hR.bind (hR.resolve act y) fun self =>
      hR.bind (hR.resolveAll act xs) fun args => hR.holding _ ?_
    refine hR.bind (hR.holding _ (hR.get hinv o k)) fun m => ?_
    cases m with
    | object f => exact hR.map (hR.call hinv f self args) _
    | _ => exact hR.raise _
  | builtin b y xs =>
    exact hR.bind (hR.resolve act y) fun self => hR.bind (hR.resolveAll act xs) fun args =>
      hR.map (hR.holding _ (hR.builtin hinv b self args)) _
  | register which => exact hR.bind (hR.register hinv habort which) fun _ => hR.pure _

set_option linter.unusedSectionVars false in
mutual

/-- One step, by induction on it together with the lists of steps that it contains. -/
theorem step (s : Step) : R Answer (s.run inv act) (s.run inv' act) := by
  cases s with
  | keep name s =>
    exact hR.bind (step s) fun a => hR.bind (hR.keep name a) fun _ => hR.pure a
  | forget name => exact hR.map (hR.forget name) _
  | increment name => exact hR.map (hR.increment name) _
  | value x => exact hR.map (hR.resolve act x) _
  | create c => exact hR.map (hR.create act c) _
  | access a => exact hR.accessStep hinv act a
  | invoke i => exact hR.invoke hinv act habort i
  | convert c => exact hR.convert hinv act c
  | inspect i => exact hR.inspect act i
  | recover site s => exact hR.map (hR.recover site (hR.map (step s) _)) _
  | record kind message site => exact hR.map (hR.record _) _
  | clearDiagnostics =>
    exact hR.bind (hR.primitive (.aside fun ns _ => ((), ns, []))) fun _ => hR.pure _
  | log x =>
    exact hR.bind (hR.resolve act x) fun v => hR.bind (hR.primitive (.log v)) fun _ => hR.pure _
  | raise kind message => exact hR.raise _
  | branch x y equal different =>
    refine hR.bind (hR.resolve act x) fun v => hR.bind (hR.resolve act y) fun w => ?_
    split
    · exact hR.bind (stepAll equal) fun _ => hR.pure _
    · exact hR.bind (stepAll different) fun _ => hR.pure _

theorem stepAll (ss : List Step) :
    R Unit (Step.runAll inv act ss) (Step.runAll inv' act ss) := by
  cases ss with
  | nil => exact hR.pure ()
  | cons s ss => exact hR.bind (hR.swept _ (step s)) fun _ => stepAll ss

end

omit act

/-- A body with its own activation. -/
theorem routine (self : Value) (args : List Value) (r : Routine Step) :
    R Value (r.run inv self args) (r.run inv' self args) :=
  hR.holding _ (hR.contained (hR.bind (hR.stepAll hinv ⟨self, args⟩ habort r.steps) fun _ =>
    hR.resolve ⟨self, args⟩ r.result))

end Run.Congruence
end ScriptModel
