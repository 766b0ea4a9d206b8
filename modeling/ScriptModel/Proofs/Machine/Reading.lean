import ScriptModel.Proofs.Heap.Locality
import ScriptModel.Proofs.Machine.Assignment
import ScriptModel.Proofs.Machine.Reachable

/-!
# Reads

A read, a write and the question whether there is a property look for the same thing: the
first object on the chain that has the key. What stands there decides a read. A value is the
answer, and nothing happens; a getter is called for the object that was asked. What a read
depends on is therefore what a look-up depends on, and a property that an object on the way
gains or loses switches the answer.
-/

namespace ScriptModel

/-- The value that the computation ended with, if it did. -/
def Outcome.toList {α : Type} : Outcome α → List α
  | .done a => [a]
  | _ => []

namespace Run

open Machine

variable {b : Address} {k : Key} {f : Fragment} {throws overrides : Bool} {s t : Machine}

/-- An accepted definition or deletion of a property of `b`. -/
inductive Changes (b : Address) (k : Key) (s t : Machine) : Prop where
  | define (f : Fragment) (throws overrides : Bool) :
    define b k f throws overrides s = (.done true, t) → Changes b k s t
  | delete (throws : Bool) : delete b k throws s = (.done true, t) → Changes b k s t

theorem Changes.path (h : Changes b k s t) : Path s t := by
  have hmove : t = s ∨ Act s t := by
    cases h with
    | define f throws overrides h =>
      simpa only [h] using define_act b k f throws overrides s
    | delete throws h => simpa only [h] using delete_act b k throws s
  rcases hmove with rfl | ha
  · exact .refl
  · exact ha.path

end Run

/-! ## Reads case by case -/

namespace Invoker

variable (inv : Invoker) {s t : Machine} {o holder : Address} {k : Key}

/-- What a read does follows from what it finds. -/
theorem get_of_find? {found : Option (Address × Property)}
    (hfind : s.heap.find? o k = found) : inv.get o k s =
      (match found with
      | none => Run.pure Value.undefined
      | some (_, .data d) => Run.pure d.value
      | some (holder, .accessor a) =>
        match a.getter with
        | none => Run.pure Value.undefined
        | some g => Run.swept (fun v => [v]) (inv.access o holder a g [])) s := by
  have hread : Run.onHeap (fun h => h.find? o k) s = (.done found, s) := by
    rw [← hfind]
    rfl
  exact Run.bind_of_done _ hread

theorem get_of_data {d : DataProperty} (hfind : s.heap.find? o k = some (holder, .data d)) :
    inv.get o k s = (.done d.value, s) :=
  inv.get_of_find? hfind

end Invoker

namespace Machine

end Machine
end ScriptModel
