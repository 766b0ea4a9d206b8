import ScriptModel.Script.Run

/-!
# Congruences of computations

A property of all runs, or of pairs of runs, is a relation between computations. It holds of
whatever the model computes as soon as it holds of the few computations that touch the
machine and is kept by the ways in which computations are put together. `Congruence` lists
both; what follows for the operations, the built-ins and the steps is in `Run.Operations`
and `Run.Steps`.

Frames are left out on purpose. A computation runs inside one frame, and what happens around
it is a matter of the dispatcher alone.
-/

namespace ScriptModel
namespace Run

variable {α β : Type}

/-- A computation on what is neither heap nor stack nor trace: the names and the
diagnostics. -/
def aside (f : List (String × Value) → List Diagnostic →
    α × List (String × Value) × List Diagnostic) : Run α := fun s =>
  (.done (f s.names s.diagnostics).1,
    { s with
      names := (f s.names s.diagnostics).2.1
      diagnostics := (f s.names s.diagnostics).2.2 })

/-- What touches the machine. All else is put together from these. -/
inductive Primitive : {α : Type} → Run α → Prop where
  | pure {α : Type} (a : α) : Primitive (Pure.pure a : Run α)
  | raise {α : Type} (e : Exception) : Primitive (Run.raise e : Run α)
  | onHeap {α : Type} (f : Heap → α) : Primitive (Run.onHeap f)
  | onDepth {α : Type} (f : Nat → α) : Primitive (Run.read fun s => f s.stack.depth)
  | aside {α : Type} (f : List (String × Value) → List Diagnostic →
      α × List (String × Value) × List Diagnostic) : Primitive (Run.aside f)
  | log (v : Value) : Primitive (Run.log v)
  | alloc (o : Object) : Primitive (Run.alloc o)
  | define (o : Address) (k : Key) (f : Fragment) (throws overrides : Bool) :
    Primitive (Run.define o k f throws overrides)
  | delete (o : Address) (k : Key) (throws : Bool) : Primitive (Run.delete o k throws)
  | preventExtensions (o : Address) : Primitive (Run.preventExtensions o)
  | setPrototype (o : Address) (p : Option Address) : Primitive (Run.setPrototype o p)
  | checkArguments (count : Nat) : Primitive (Run.checkArguments count)

/-- A relation that holds of every primitive with itself, and that is kept by every way to
put computations together. -/
structure Congruence (R : (α : Type) → Run α → Run α → Prop) : Prop where
  primitive {α : Type} {x : Run α} : Primitive x → R α x x
  bind {α β : Type} {x y : Run α} {f g : α → Run β} :
    R α x y → (∀ a, R β (f a) (g a)) → R β (x >>= f) (y >>= g)
  attempt {α : Type} {x y : Run α} :
    R α x y → R (Except Exception α) x.attempt y.attempt
  contained {α : Type} {x y : Run α} : R α x y → R α x.contained y.contained
  holding {α : Type} {x y : Run α} (vs : List Value) :
    R α x y → R α (Run.holding vs x) (Run.holding vs y)
  swept {α : Type} {x y : Run α} (inHand : α → List Value) :
    R α x y → R α (Run.swept inHand x) (Run.swept inHand y)

namespace Congruence

variable {R : (α : Type) → Run α → Run α → Prop} (hR : Congruence R)
include hR

theorem pure (a : α) : R α (Pure.pure a) (Pure.pure a) := hR.primitive (.pure a)

theorem raise (e : Exception) : R α (Run.raise e) (Run.raise e) := hR.primitive (.raise e)

theorem onHeap (f : Heap → α) : R α (Run.onHeap f) (Run.onHeap f) :=
  hR.primitive (.onHeap f)

theorem object (a : Address) : R Object (Run.object a) (Run.object a) :=
  hR.onHeap fun h => h.get a

theorem alloc (o : Object) : R Address (Run.alloc o) (Run.alloc o) :=
  hR.primitive (.alloc o)

/-- A computation and then a function of its result. -/
theorem map {x y : Run α} (hx : R α x y) (f : α → β) :
    R β (x >>= fun a => Pure.pure (f a)) (y >>= fun a => Pure.pure (f a)) :=
  hR.bind hx fun a => hR.pure (f a)

theorem reject (throws : Bool) (e : Exception) :
    R Bool (Run.reject throws e) (Run.reject throws e) := by
  unfold Run.reject
  split
  · exact hR.raise e
  · exact hR.pure false

/-- An assignment that adds a property looks at the object and then defines or refuses. -/
theorem add (o : Address) (k : Key) (v : Value) (throws overrides : Bool) :
    R Bool (Run.add o k v throws overrides) (Run.add o k v throws overrides) := by
  have hadd : Run.add o k v throws overrides =
      Run.onHeap (fun h => (h.get o).extensible || overrides) >>= fun b =>
        if b then Run.define o k (.data v true (!overrides) true) throws overrides
        else Run.reject throws (.cannotAdd k) := by
    funext s
    simp only [Run.add, bind_apply, Run.onHeap, read_apply]
    split <;> rfl
  rw [hadd]
  refine hR.bind (hR.onHeap _) fun b => ?_
  cases b
  · exact hR.reject throws _
  · exact hR.primitive (.define ..)

end Congruence
end Run
end ScriptModel
