import ScriptModel.Proofs.Run.Steps

/-!
# Congruences and the dispatcher

What a frame runs is related for related invokers. Around the frame another relation may
hold: how `framed` leads from the one to the other is the only thing that a property of the
dispatcher has to show.
-/

namespace ScriptModel

/-! ## Requests -/

/-- The function that a request is for. -/
def Request.function : Request → Address
  | call f _ _ => f
  | construct f _ => f
  | hasInstance f _ => f

/-- What a request runs inside its frame, given what its function consists of. -/
def Invoker.body (inv : Invoker) (c : Callable Step) : (r : Request) → Run r.Reply
  | .call _ self args => inv.callBody self args c
  | .construct _ args => inv.constructBody args c
  | .hasInstance f v => inv.testBody f v c

/-- A request for a function is served in a frame. -/
theorem Invoker.serve_of_callable (inv : Invoker) (r : Request) {s : Machine}
    {c : Callable Step} (hc : (s.heap.get r.function).callable = some c) :
    inv.serve r s = Run.framed (inv.body c r) s := by
  cases r <;>
    simp only [serve, Run.bind_apply, Run.object, Run.read_apply,
      Request.function] at hc ⊢ <;>
    rw [hc] <;> rfl

/-! ## Congruence -/

namespace Run.Congruence

variable {R : (α : Type) → Run α → Run α → Prop} (hR : Congruence R)
  {inv inv' : Invoker} (hinv : Invoker.Corresponds R inv inv')
  (hroutine : ∀ (self : Value) (args : List Value) (r : Routine Step),
    R Value (r.run inv self args) (r.run inv' self args))
include hR hinv

theorem testBody (f : Address) (v : Value) (c : Callable Step) :
    R Bool (inv.testBody f v c) (inv'.testBody f v c) := by
  cases c with
  | scripted s =>
    simp only [Invoker.testBody]
    split
    · exact hR.testInstance hinv f v
    · exact hR.raise _
  | native n => exact hR.testInstance hinv f v
  | bound b =>
    refine hR.bind (hR.object _) fun o => ?_
    cases o.callable.any Callable.testsInstances
    · exact hR.raise _
    · exact hinv (.hasInstance b.target v)

include hroutine

omit hinv in
theorem constructWith (args : List Value) (r : Routine Step) :
    R Address (inv.constructWith args r) (inv'.constructWith args r) := by
  refine hR.bind (hroutine .undefined args r) fun v => ?_
  cases v with
  | object a => exact hR.pure a
  | _ => exact hR.raise _

theorem callBody (self : Value) (args : List Value) (c : Callable Step) :
    R Value (inv.callBody self args c) (inv'.callBody self args c) := by
  cases c with
  | scripted s =>
    simp only [Invoker.callBody]
    cases s.body with
    | none => exact hR.pure _
    | some r => exact hroutine self args r
  | native n =>
    simp only [Invoker.callBody]
    cases n.behaviour with
    | builtin b => exact hR.builtin hinv b self args
    | routine r => exact hroutine self args r
  | bound b => exact hinv (.call b.target b.receiver (b.arguments ++ args))

theorem constructBody (args : List Value) (c : Callable Step) :
    R Address (inv.constructBody args c) (inv'.constructBody args c) := by
  cases c with
  | scripted s =>
    simp only [Invoker.constructBody]
    cases s.construction with
    | routine r => exact hR.constructWith hroutine args r
    | absent => exact hR.raise _
    | refusing => exact hR.raise _
  | native n =>
    simp only [Invoker.constructBody]
    cases n.construction with
    | none => exact hR.raise _
    | some r => exact hR.constructWith hroutine args r
  | bound b =>
    refine hR.bind (hR.object _) fun o => ?_
    cases o.callable.any Callable.isConstructor
    · exact hR.raise _
    · exact hinv (.construct b.target (b.arguments ++ args))

/-- Serving opens one frame, and reads the heap before it does. -/
theorem serve {R' : (α : Type) → Run α → Run α → Prop} (hR' : Congruence R')
    (hframed : ∀ {α : Type} {x y : Run α}, R α x y → R' α (Run.framed x) (Run.framed y)) :
    Invoker.Corresponds R' inv.serve inv'.serve := by
  intro r
  cases r with
  | call f self args =>
    refine hR'.bind (hR'.object f) fun o => ?_
    cases o.callable with
    | none => exact hR'.raise _
    | some c => exact hframed (hR.callBody hinv hroutine self args c)
  | construct f args =>
    refine hR'.bind (hR'.object f) fun o => ?_
    cases o.callable with
    | none => exact hR'.raise _
    | some c => exact hframed (hR.constructBody hinv hroutine args c)
  | hasInstance f v =>
    refine hR'.bind (hR'.object f) fun o => ?_
    cases o.callable with
    | none => exact hR'.raise _
    | some c => exact hframed (hR.testBody hinv f v c)

omit hinv hroutine

/-- A congruence that frames keep, and that computations which give up satisfy, relates
every dispatcher to itself. -/
theorem dispatch
    (hframed : ∀ {α : Type} {x y : Run α}, R α x y → R α (Run.framed x) (Run.framed y))
    (habort : ∀ f : InstallFailure, R Unit (Run.abort f) (Run.abort f))
    (hexhausted : ∀ α : Type, R α Run.exhausted Run.exhausted) (n : Nat) :
    Invoker.Corresponds R (dispatch n) (dispatch n) := by
  induction n with
  | zero => exact fun r => hexhausted r.Reply
  | succ n ih => exact hR.serve ih (hR.routine ih habort) hR hframed

end Run.Congruence
end ScriptModel
