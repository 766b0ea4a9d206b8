import ScriptModel.Machine.Basic

/-!
# Invocation

Whatever runs a function runs it in a frame, so each operation is written against an
`Invoker`: it serves a request one frame deeper. `Dispatch` ties the knot, with a budget of
frames. Within one frame there is no recursion but the one on the data at hand.

Who asks for a call keeps the function and the receiver until it is over. The arguments go
over to the function called.
-/

namespace ScriptModel

/-- What can be asked of the function behind an object. -/
inductive Request where
  | call (f : Address) (self : Value) (args : List Value)
  | construct (f : Address) (args : List Value)
  | hasInstance (f : Address) (v : Value)

/-- What the answer to a request is. -/
def Request.Reply : Request → Type
  | call _ _ _ => Value
  | construct _ _ => Address
  | hasInstance _ _ => Bool

/-- Serves requests. -/
def Invoker : Type := (r : Request) → Run r.Reply

namespace Invoker

variable (inv : Invoker)

def call (f : Address) (self : Value) (args : List Value) : Run Value :=
  Run.holding [.object f, self] (inv (.call f self args))

def construct (f : Address) (args : List Value) : Run Address :=
  Run.holding [.object f] (inv (.construct f args))

def hasInstance (f : Address) (v : Value) : Run Bool :=
  Run.holding [.object f, v] (inv (.hasInstance f v))

/-! ## Properties along the chain -/

/-- Runs one function of an accessor on behalf of `o`. Meanwhile the accessor and the object
that has it stay alive, even when the object loses the accessor. -/
def access (o holder : Address) (a : AccessorProperty) (f : Address) (args : List Value) :
    Run Value :=
  Run.holding (.object holder :: (Property.accessor a).references.map Value.object)
    (inv.call f (.object o) args)

/-- Reads a property. A getter runs with the object that was asked as its receiver, wherever
on the chain it was found; what is found nowhere is undefined. -/
def get (o : Address) (k : Key) : Run Value := do
  match ← Run.onHeap fun h => h.find? o k with
  | none => return .undefined
  | some (_, .data d) => return d.value
  | some (holder, .accessor a) =>
    match a.getter with
    | none => return .undefined
    | some g => Run.swept (fun v => [v]) (inv.access o holder a g [])

/-- Writes a property of the object itself, unless an accessor on the chain takes the write.
An override skips the checks for writable and extensible, and leaves new properties out of
enumerations. -/
def put (o : Address) (k : Key) (v : Value) (throws overrides : Bool) : Run Bool := do
  match ← Run.onHeap fun h => h.find? o k with
  | some (holder, .accessor a) =>
    match a.setter with
    | none => Run.reject throws (.getterOnly k)
    | some f => Run.swept (fun _ => []) do
      let _ ← inv.access o holder a f [v]
      return true
  | some (holder, .data d) =>
    if holder = o then
      if d.writable || (overrides && d.configurable) then
        Run.define o k (.valueOnly v) throws overrides
      else Run.reject throws (.readOnly k)
    else if !d.writable && !overrides then Run.reject throws (.readOnly k)
    else Run.add o k v throws overrides
  | none => Run.add o k v throws overrides

/-- Nothing runs when an object has the property itself, as a value. -/
theorem get_of_own {inv : Invoker} {o : Address} {k : Key} {d : DataProperty} {s : Machine}
    (hd : (s.heap.get o).own? k = some (.data d)) : inv.get o k s = (.done d.value, s) := by
  have hfind : Run.onHeap (fun h => h.find? o k) s = (.done (some (o, .data d)), s) := by
    rw [Run.onHeap, Run.read_apply, Heap.find?_of_own hd]
  exact Run.bind_of_done _ hfind

/-- What a write does follows from what it finds. -/
theorem put_of_find? (inv : Invoker) {o : Address} {k : Key} {s : Machine}
    {found : Option (Address × Property)} (hfind : s.heap.find? o k = found) (v : Value)
    (throws overrides : Bool) :
    inv.put o k v throws overrides s =
      (match found with
      | some (holder, .accessor a) =>
        match a.setter with
        | none => Run.reject throws (.getterOnly k)
        | some f => Run.swept (fun _ => []) do
          let _ ← inv.access o holder a f [v]
          return true
      | some (holder, .data d) =>
        if holder = o then
          if d.writable || (overrides && d.configurable) then
            Run.define o k (.valueOnly v) throws overrides
          else Run.reject throws (.readOnly k)
        else if !d.writable && !overrides then Run.reject throws (.readOnly k)
        else Run.add o k v throws overrides
      | none => Run.add o k v throws overrides) s := by
  have hread : Run.onHeap (fun h => h.find? o k) s = (.done found, s) := by
    rw [← hfind]
    rfl
  exact Run.bind_of_done _ hread

end Invoker
end ScriptModel
