import ScriptModel.Object.Basic

/-!
# The heap

Objects by address. Addresses are given out in order and never again; reading an address
that was not given out yields a blank object, and writing to one does nothing. A prototype
link is made only to an object that exists, so no later object can find itself linked to.
-/

namespace ScriptModel

structure Heap where
  objects : Array Object

namespace Heap

def empty : Heap := ⟨#[]⟩

def size (h : Heap) : Nat := h.objects.size

/-- The address was given out. -/
def contains (h : Heap) (a : Address) : Bool := decide (a.index < h.size)

def get (h : Heap) (a : Address) : Object := h.objects.getD a.index default

def modify (h : Heap) (a : Address) (f : Object → Object) : Heap :=
  ⟨h.objects.modify a.index f⟩

def set (h : Heap) (a : Address) (o : Object) : Heap := h.modify a fun _ => o

/-- A link to an object that exists. -/
def link (h : Heap) (p : Option Address) : Option Address := p.filter h.contains

/-- The address of the next object. -/
def next (h : Heap) : Address := ⟨h.size⟩

/-- The heap with one more object, at `h.next`. -/
def alloc (h : Heap) (o : Object) : Heap :=
  ⟨h.objects.push { o with proto := h.link o.proto }⟩

/-- Gives an object another prototype, without any check. -/
def relink (h : Heap) (a : Address) (p : Option Address) : Heap :=
  h.modify a fun o => { o with proto := h.link p }

/-! ## What the operations do to a look-up -/

theorem contains_iff {h : Heap} {a : Address} :
    h.contains a = true ↔ a.index < h.objects.size :=
  decide_eq_true_iff

theorem get_eq_getElem {h : Heap} {a : Address} (ha : a.index < h.objects.size) :
    h.get a = h.objects[a.index] := by
  simp [get, Array.getD, ha]

theorem get_of_not_contains {h : Heap} {a : Address} (ha : h.contains a = false) :
    h.get a = default := by
  have hn : ¬ a.index < h.objects.size := fun hi => by
    rw [contains_iff.mpr hi] at ha
    cases ha
  simp [get, Array.getD, hn]

@[simp] theorem size_modify (h : Heap) (a : Address) (f : Object → Object) :
    (h.modify a f).size = h.size := by simp [size, modify]

@[simp] theorem contains_modify (h : Heap) (a b : Address) (f : Object → Object) :
    (h.modify a f).contains b = h.contains b := by simp [contains]

theorem get_modify_self {h : Heap} {a : Address} (f : Object → Object)
    (ha : h.contains a = true) : (h.modify a f).get a = f (h.get a) := by
  have hi := contains_iff.mp ha
  rw [get_eq_getElem hi, get_eq_getElem (by simpa [modify] using hi)]
  simp [modify, Array.getElem_modify]

theorem get_modify_ne {h : Heap} {a b : Address} (f : Object → Object) (hb : b ≠ a) :
    (h.modify a f).get b = h.get b := by
  have hi : a.index ≠ b.index := fun hi => hb (by cases a; cases b; simp_all)
  by_cases hs : b.index < h.objects.size
  · simp [get, modify, Array.getD, hs, Array.getElem_modify, hi]
  · simp [get, modify, Array.getD, hs]

@[simp] theorem size_alloc (h : Heap) (o : Object) : (h.alloc o).size = h.size + 1 := by
  simp [size, alloc]

@[simp] theorem get_alloc_next (h : Heap) (o : Object) :
    (h.alloc o).get h.next = { o with proto := h.link o.proto } := by
  simp [get, alloc, next, size, Array.getD]

theorem get_alloc_of_contains {h : Heap} {a : Address} (o : Object)
    (ha : h.contains a = true) : (h.alloc o).get a = h.get a := by
  have hi := contains_iff.mp ha
  have hs : a.index < (h.alloc o).objects.size := by
    simpa [alloc] using Nat.lt_succ_of_lt hi
  rw [get_eq_getElem hi, get_eq_getElem hs]
  simp [alloc, Array.getElem_push, hi]

theorem not_contains_next (h : Heap) : h.contains h.next = false := by
  simp [contains, next, size]

/-- A link leads to an object that exists. -/
theorem contains_of_link {h : Heap} {p : Option Address} {a : Address}
    (hl : h.link p = some a) : h.contains a = true := by
  simp only [link, Option.filter_eq_some_iff] at hl
  exact hl.2

theorem link_of_contains {h : Heap} {a : Address} (ha : h.contains a = true) :
    h.link (some a) = some a := by
  simp [link, Option.filter, ha]

end Heap
end ScriptModel
