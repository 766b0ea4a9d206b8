import ScriptModel.Heap.Basic

/-!
# The lifetime of prototypes

A prototype link does not keep an object alive. An object lives as long as something holds
it: a root, or another object that lives and refers to it. When the last holder goes, the
links to the object go too. Objects that hold one another keep each other alive.
-/

namespace ScriptModel
namespace Heap

/-- Marks the addresses. -/
def mark (marks : Array Bool) (as : List Address) : Array Bool :=
  as.foldl (fun m a => m.setIfInBounds a.index true) marks

/-- The objects held by the roots or by an object that is counted as living. -/
def heldBy (h : Heap) (roots : List Address) (living : Array Bool) : Array Bool :=
  (List.range h.size).foldl
    (fun m i => if living.getD i false then mark m (h.get ⟨i⟩).references else m)
    (mark (Array.replicate h.size false) roots)

/-- Takes objects without a holder out of the living until all that are left have one. -/
def settle (h : Heap) (roots : List Address) : Nat → Array Bool → Array Bool
  | 0, living => living
  | n + 1, living =>
    let held := h.heldBy roots living
    if held == living then living else h.settle roots n held

/-- The living objects. -/
def living (h : Heap) (roots : List Address) : Array Bool :=
  h.settle roots (h.size + 1) (Array.replicate h.size true)

/-- Cuts every link to an object that no longer lives. -/
def unlink (h : Heap) (lives : Address → Bool) : Heap :=
  ⟨h.objects.map fun o => { o with proto := o.proto.filter lives }⟩

/-- Cuts the links to all objects that nothing holds any more. -/
def release (h : Heap) (roots : List Address) : Heap :=
  let alive := h.living roots
  let lives : Address → Bool := fun a => alive.getD a.index false
  if h.objects.all fun o => o.proto.all lives then h else h.unlink lives

end Heap
end ScriptModel
