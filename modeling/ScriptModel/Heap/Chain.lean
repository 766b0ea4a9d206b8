import ScriptModel.Heap.Basic

/-!
# Prototype chains

The chain of an object is the object, its prototype, the prototype of that, and so on. A
heap without cycles has no chain longer than its number of objects, so the walk takes that
many steps at most. All look-ups go along the chain and stop at the first holder of the key.
-/

namespace ScriptModel
namespace Heap

/-- At most `n` objects upward from a link. -/
def upward (h : Heap) : Nat → Option Address → List Address
  | 0, _ => []
  | _ + 1, none => []
  | n + 1, some a => a :: h.upward n (h.get a).proto

/-- The objects strictly above an object, nearest first. -/
def ancestors (h : Heap) (a : Address) : List Address := h.upward h.size (h.get a).proto

/-- The object and those above it. -/
def chain (h : Heap) (a : Address) : List Address := a :: h.ancestors a

/-- The first object on the chain that has the key. -/
def holder? (h : Heap) (a : Address) (k : Key) : Option Address :=
  (h.chain a).find? fun b => (h.get b).hasOwn k

/-- The property found along the chain, with the object that holds it (`find_property`). -/
def find? (h : Heap) (a : Address) (k : Key) : Option (Address × Property) :=
  (h.holder? a k).bind fun b => ((h.get b).own? k).map fun p => (b, p)

def hasProperty (h : Heap) (a : Address) (k : Key) : Bool := (h.holder? a k).isSome

/-- `p` is strictly above `a` (`is_on_chain`). -/
def isAbove (h : Heap) (p a : Address) : Bool := (h.ancestors a).contains p

/-- The object is, or is above, the prospective prototype. -/
def wouldCycle (h : Heap) (o : Address) : Option Address → Bool
  | none => false
  | some p => (h.chain p).contains o

/-- The heap after a request for another prototype (`set_prototype_of`): `none` when it is
refused. Asking for the prototype that is already there always succeeds. -/
def setPrototype (h : Heap) (o : Address) (p : Option Address) : Option Heap :=
  if (h.get o).proto = p then some h
  else if !(h.get o).extensible || h.wouldCycle o p then none
  else some (h.relink o p)

/-! ## The start of a chain -/

@[simp] theorem upward_none (h : Heap) (n : Nat) : h.upward n none = [] := by
  cases n <;> rfl

theorem mem_chain_self (h : Heap) (a : Address) : a ∈ h.chain a := List.mem_cons_self

theorem mem_chain_iff {h : Heap} {a b : Address} :
    b ∈ h.chain a ↔ b = a ∨ b ∈ h.ancestors a := List.mem_cons

/-- An object that has the key is its first holder. -/
theorem holder?_of_hasOwn {h : Heap} {a : Address} {k : Key}
    (hk : (h.get a).hasOwn k = true) : h.holder? a k = some a := by
  simp [holder?, chain, hk]

/-- Its own property hides all others. -/
theorem find?_of_own {h : Heap} {a : Address} {k : Key} {p : Property}
    (hp : (h.get a).own? k = some p) : h.find? a k = some (a, p) := by
  have hk : (h.get a).hasOwn k = true := by
    simp only [Object.hasOwn, PropertyTable.contains]
    rw [show (h.get a).table.get? k = some p from hp]
    rfl
  simp [find?, holder?_of_hasOwn hk, hp]

/-- What is found is an own property of the object that holds it, and that object is on the
chain. -/
theorem own_of_find? {h : Heap} {a b : Address} {k : Key} {p : Property}
    (hf : h.find? a k = some (b, p)) : b ∈ h.chain a ∧ (h.get b).own? k = some p := by
  obtain ⟨c, hc, hq⟩ := Option.bind_eq_some_iff.mp hf
  obtain ⟨q, hq, he⟩ := Option.map_eq_some_iff.mp hq
  cases he
  exact ⟨List.mem_of_find?_eq_some hc, hq⟩

end Heap
end ScriptModel
