import ScriptModel.Heap.Chain
import ScriptModel.Heap.Lifetime
import ScriptModel.Machine.CallStack
import ScriptModel.Diagnostic

/-!
# The machine

The state of a run, and computations on it. A computation ends with a value, with an
exception, with a failed installation, or because the dispatcher's budget is used up, and
always leaves a machine behind: what was done before an exception stays done.

Whatever runs functions holds the values that it still needs meanwhile (`Run.holding`).
Where it lets values go and looks at prototypes again, the links to objects that nothing
holds any more are cut first (`Run.swept`).

The trace records what a run does apart from changing objects: the frames that it opens and
closes, what the limits refuse, what is logged, and the writes that override an object's
protection.
-/

namespace ScriptModel

inductive Event where
  /-- A frame was opened; the depth is then as given. -/
  | entered (depth : Nat)
  /-- A frame was closed; the depth is then as given. -/
  | left (depth : Nat)
  /-- A frame was refused at the given depth. -/
  | frameRefused (depth : Nat)
  | argumentsRefused (count : Nat)
  | logged (v : Value)
  | overrode (o : Address)
  deriving DecidableEq

/-- The state of a run (`EvalContext`), with what its surroundings hold and note. -/
structure Machine where
  heap : Heap
  stack : CallStack
  /-- Newest first. -/
  trace : List Event
  /-- The named values, by name. -/
  names : List (String × Value)
  /-- What the running computations hold. -/
  held : List Value
  diagnostics : List Diagnostic

/-- How a computation ends. -/
inductive Outcome (α : Type) where
  | done (a : α)
  | raised (e : Exception)
  /-- A built-in could not be installed. This is no exception: nothing but the end of a body
  stops it. -/
  | aborted (f : InstallFailure)
  | exhausted
  deriving DecidableEq

/-- A computation on the machine. -/
def Run (α : Type) : Type := Machine → Outcome α × Machine

namespace Run

variable {α β : Type}

def pure (a : α) : Run α := fun s => (.done a, s)

def bind (x : Run α) (f : α → Run β) : Run β := fun s =>
  match x s with
  | (.done a, t) => f a t
  | (.raised e, t) => (.raised e, t)
  | (.aborted e, t) => (.aborted e, t)
  | (.exhausted, t) => (.exhausted, t)

instance : Monad Run where
  pure := Run.pure
  bind := Run.bind

def raise (e : Exception) : Run α := fun s => (.raised e, s)

/-- Gives up because a built-in could not be installed. -/
def abort (f : InstallFailure) : Run α := fun s => (.aborted f, s)

/-- There is no budget left. -/
def exhausted : Run α := fun s => (.exhausted, s)

/-- What a function makes of the machine. -/
def read (f : Machine → α) : Run α := fun s => (.done (f s), s)

def modify (f : Machine → Machine) : Run Unit := fun s => (.done (), f s)

/-- Turns an exception into a result. -/
def attempt (x : Run α) : Run (Except Exception α) := fun s =>
  match x s with
  | (.done a, t) => (.done (.ok a), t)
  | (.raised e, t) => (.done (.error e), t)
  | (.aborted e, t) => (.aborted e, t)
  | (.exhausted, t) => (.exhausted, t)

/-- Turns a failed installation into the exception that caused it. -/
def contained (x : Run α) : Run α := fun s =>
  match x s with
  | (.aborted f, t) => (.raised f.cause, t)
  | r => r

/-- Refuses: with an exception if that is asked for, and otherwise by answering `false`. -/
def reject (throws : Bool) (e : Exception) : Run Bool :=
  if throws then raise e else pure false

/-! Each computation, applied to a machine. -/

@[simp] theorem pure_apply (a : α) (s : Machine) : (Pure.pure a : Run α) s = (.done a, s) :=
  rfl

@[simp] theorem read_apply (f : Machine → α) (s : Machine) : read f s = (.done (f s), s) :=
  rfl

theorem bind_apply (x : Run α) (f : α → Run β) (s : Machine) :
    (x >>= f) s =
      match x s with
      | (.done a, t) => f a t
      | (.raised e, t) => (.raised e, t)
      | (.aborted e, t) => (.aborted e, t)
      | (.exhausted, t) => (.exhausted, t) := rfl

theorem bind_of_done {x : Run α} {s t : Machine} {a : α} (f : α → Run β)
    (h : x s = (.done a, t)) : (x >>= f) s = f a t := by
  rw [bind_apply, h]

theorem bind_of_raised {x : Run α} {s t : Machine} {e : Exception} (f : α → Run β)
    (h : x s = (.raised e, t)) : (x >>= f) s = (.raised e, t) := by
  rw [bind_apply, h]

theorem bind_of_aborted {x : Run α} {s t : Machine} {e : InstallFailure} (f : α → Run β)
    (h : x s = (.aborted e, t)) : (x >>= f) s = (.aborted e, t) := by
  rw [bind_apply, h]

theorem bind_of_exhausted {x : Run α} {s t : Machine} (f : α → Run β)
    (h : x s = (.exhausted, t)) : (x >>= f) s = (.exhausted, t) := by
  rw [bind_apply, h]

/-- What ends with a value got one from both parts. -/
theorem bind_eq_done {x : Run α} {f : α → Run β} {s u : Machine} {b : β}
    (h : (x >>= f) s = (.done b, u)) :
    ∃ a t, x s = (.done a, t) ∧ f a t = (.done b, u) := by
  rw [bind_apply] at h
  rcases hx : x s with ⟨a | _ | _ | _, t⟩ <;> rw [hx] at h
  · exact ⟨a, t, rfl, h⟩
  all_goals cases h

theorem id_map_run (x : Run α) : id <$> x = x := by
  funext s
  show Run.bind x _ s = x s
  unfold Run.bind
  rcases x s with ⟨_ | _ | _ | _, t⟩ <;> rfl

theorem bind_assoc_run {γ : Type} (x : Run α) (f : α → Run β) (g : β → Run γ) :
    x >>= f >>= g = x >>= fun a => f a >>= g := by
  funext s
  show Run.bind (Run.bind x f) g s = Run.bind x _ s
  unfold Run.bind
  rcases x s with ⟨_ | _ | _ | _, t⟩ <;> rfl

instance : LawfulMonad Run :=
  LawfulMonad.mk' Run (fun x => id_map_run x) (fun _ _ => rfl)
    (fun x f g => bind_assoc_run x f g)

end Run

/-! ## Machine operations -/

namespace Machine

def withHeap (s : Machine) (h : Heap) : Machine := { s with heap := h }

def note (s : Machine) (e : Event) : Machine := { s with trace := e :: s.trace }

/-- The first value under a name. -/
def named? (s : Machine) (name : String) : Option Value := s.names.lookup name

def keep (s : Machine) (name : String) (v : Value) : Machine :=
  { s with names := (name, v) :: s.names.filter fun e => decide (e.1 ≠ name) }

def forget (s : Machine) (name : String) : Machine :=
  { s with names := s.names.filter fun e => decide (e.1 ≠ name) }

/-- The addresses that are held from outside the heap. -/
def roots (s : Machine) : List Address :=
  [.objectPrototype, .functionPrototype, .typeThrower] ++
    s.names.filterMap (fun e => e.2.address?) ++ s.held.filterMap Value.address?

/-- Cuts the prototype links to objects that nothing holds any more, the values in hand
apart. -/
def sweep (s : Machine) (inHand : List Value) : Machine :=
  s.withHeap (s.heap.release (s.roots ++ inHand.filterMap Value.address?))

end Machine

namespace Run

variable {α : Type}

def object (a : Address) : Run Object := read fun s => s.heap.get a

def onHeap (f : Heap → α) : Run α := read fun s => f s.heap

/-- Makes an object (`into_shared`). -/
def alloc (o : Object) : Run Address := fun s =>
  (.done s.heap.next, s.withHeap (s.heap.alloc o))

/-- Defines a property on an object (`define_own_property`). An override is noted in the
trace. -/
def define (o : Address) (k : Key) (f : Fragment) (throws overrides : Bool) :
    Run Bool := fun s =>
  let s := if overrides then s.note (.overrode o) else s
  match (s.heap.get o).define k f overrides with
  | .ok obj => (.done true, s.withHeap (s.heap.set o obj))
  | .error e => reject throws e s

/-- Makes a property by assignment, if the object takes it. -/
def add (o : Address) (k : Key) (v : Value) (throws overrides : Bool) : Run Bool := fun s =>
  if (s.heap.get o).extensible || overrides then
    define o k (.data v true (!overrides) true) throws overrides s
  else reject throws (.cannotAdd k) s

def delete (o : Address) (k : Key) (throws : Bool) : Run Bool := fun s =>
  match (s.heap.get o).delete k with
  | .ok obj => (.done true, s.withHeap (s.heap.set o obj))
  | .error e => reject throws e s

/-- Lets an object take no more properties. -/
def preventExtensions (o : Address) : Run Bool := fun s =>
  (.done true, s.withHeap (s.heap.modify o fun obj => { obj with extensible := false }))

def setPrototype (o : Address) (p : Option Address) : Run Bool := fun s =>
  match s.heap.setPrototype o p with
  | some h => (.done true, s.withHeap h)
  | none => (.done false, s)

/-- Runs a computation in a frame of its own. The frame is closed however the computation
ends; when the stack refuses the frame, the computation does not run. -/
def framed (x : Run α) : Run α := fun s =>
  match s.stack.enter with
  | .error e => (.raised e, s.note (.frameRefused s.stack.depth))
  | .ok stack =>
    let (r, t) := x ({ s with stack := stack }.note (.entered stack.depth))
    (r, { t with stack := t.stack.leave }.note (.left t.stack.leave.depth))

/-- Refuses a list of arguments that is too long. -/
def checkArguments (count : Nat) : Run Unit := fun s =>
  match s.stack.checkArguments count with
  | .ok () => (.done (), s)
  | .error e => (.raised e, s.note (.argumentsRefused count))

/-- Holds values while a computation runs. -/
def holding (vs : List Value) (x : Run α) : Run α := fun s =>
  let (r, t) := x { s with held := vs ++ s.held }
  (r, { t with held := s.held })

/-- Runs a computation that lets go of values when it ends, and cuts the prototype links to
what nothing holds any more. `inHand` are the values that go on being used, given the
result. -/
def swept (inHand : α → List Value) (x : Run α) : Run α := fun s =>
  match x s with
  | (.done a, t) => (.done a, t.sweep (inHand a))
  | (r, t) => (r, t.sweep [])

theorem holding_of_eq {vs : List Value} {x : Run α} {s t : Machine} {r : Outcome α}
    (h : x { s with held := vs ++ s.held } = (r, t)) :
    holding vs x s = (r, { t with held := s.held }) := by
  rw [holding, h]

theorem outcome_holding (vs : List Value) (x : Run α) (s : Machine) :
    (holding vs x s).1 = (x { s with held := vs ++ s.held }).1 := rfl

theorem swept_of_done {inHand : α → List Value} {x : Run α} {s t : Machine} {a : α}
    (h : x s = (.done a, t)) : swept inHand x s = (.done a, t.sweep (inHand a)) := by
  rw [swept, h]

theorem swept_of_aborted {inHand : α → List Value} {x : Run α} {s t : Machine}
    {f : InstallFailure} (h : x s = (.aborted f, t)) :
    swept inHand x s = (.aborted f, t.sweep []) := by
  rw [swept, h]

theorem outcome_swept (inHand : α → List Value) (x : Run α) (s : Machine) :
    (swept inHand x s).1 = (x s).1 := by
  unfold swept
  split <;> simp_all

/-- Contained, a computation ends without a failed installation. -/
theorem contained_ne_aborted (x : Run α) (s : Machine) (f : InstallFailure) :
    (contained x s).1 ≠ .aborted f := by
  unfold contained
  rcases x s with ⟨_ | _ | _ | _, t⟩ <;> simp

end Run
end ScriptModel
