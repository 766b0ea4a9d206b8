import ScriptModel.Proofs.Heap.Acyclic
import ScriptModel.Proofs.Machine.Depth
import ScriptModel.Proofs.Machine.Retention

/-!
# Reachable machines

What moves make of a fresh machine. All that a script can come to, between its steps and in
the middle of them, is among it, and the heap of each is acyclic.
-/

namespace ScriptModel
namespace Machine

/-- What a fresh machine with the given limits can come to. -/
inductive Reachable (l : Limits) : Machine → Prop where
  | fresh : Reachable l (fresh l)
  | move {s t : Machine} : Reachable l s → Move s t → Reachable l t

/-- What all reachable machines have in common. -/
structure Sound (l : Limits) (s : Machine) : Prop where
  acyclic : s.heap.Acyclic
  limits_eq : s.stack.limits = l
  depth_le : ∀ L, l.maxDepth = some L → s.stack.depth ≤ L

/-! ## Every move keeps a machine sound -/

theorem Act.acyclic {s t : Machine} (h : Act s t) (hs : s.heap.Acyclic) :
    t.heap.Acyclic := by
  cases h with
  | note e he => exact hs
  | aside names diagnostics => exact hs
  | hold vs => exact hs
  | sweep inHand => exact hs.release _
  | alloc o => exact hs.alloc o
  | define hd => exact hs.modify (Object.proto_of_define hd)
  | override hd => exact hs.modify (Object.proto_of_define hd)
  | delete hd => exact hs.modify (Object.proto_of_delete hd)
  | preventExtensions o => exact hs.modify rfl
  | setPrototype hp => exact hs.setPrototype hp

theorem Act.stack {s t : Machine} (h : Act s t) : t.stack = s.stack := by
  cases h <;> rfl

variable {l : Limits}

theorem Move.sound {s t : Machine} (h : Move s t) (hs : Sound l s) : Sound l t := by
  cases h with
  | act ha =>
    have hstack := ha.stack
    exact ⟨ha.acyclic hs.acyclic, hstack ▸ hs.limits_eq, hstack ▸ hs.depth_le⟩
  | enter ha =>
    refine ⟨hs.acyclic, hs.limits_eq, fun L hL => ?_⟩
    have hlt : s.stack.depth < L := by
      simpa [admits, Limits.admits, hs.limits_eq, hL] using ha
    exact hlt
  | leave =>
    refine ⟨hs.acyclic, hs.limits_eq, fun L hL => ?_⟩
    exact Nat.le_trans (Nat.sub_le _ 1) (hs.depth_le L hL)
  | refuse ha => exact ⟨hs.acyclic, hs.limits_eq, hs.depth_le⟩

theorem acyclic_bareHeap : bareHeap.Acyclic :=
  ((Heap.acyclic_empty.alloc _).alloc _).alloc _

theorem sound_bare (l : Limits) : Sound l (bare l) :=
  ⟨acyclic_bareHeap, rfl, fun L _ => Nat.zero_le L⟩

theorem Sound.untraced {s : Machine} (hs : Sound l s) : Sound l s.untraced :=
  ⟨hs.acyclic, hs.limits_eq, hs.depth_le⟩

/-- The registration of the built-ins is a run like any other. -/
theorem register_path (n : Nat) (which : Registration) (s : Machine) :
    Path s ((dispatch n).register which s).2 :=
  Run.congruence_path.register (Run.dispatch_path n) (fun _ _ => .refl) which s

theorem sound_fresh (l : Limits) : Sound l (fresh l) := by
  have h : Sound l ((dispatch 1).register .all (bare l)).2 :=
    (register_path 1 .all (bare l)).preserves Move.sound (sound_bare l)
  rw [fresh_eq]
  exact h.untraced

namespace Reachable

variable {s t : Machine}

theorem sound (h : Reachable l s) : Sound l s := by
  induction h with
  | fresh => exact sound_fresh l
  | move _ hm ih => exact hm.sound ih

theorem path (h : Reachable l s) (hp : Path s t) : Reachable l t :=
  hp.preserves (fun hm hs => .move hs hm) h

/-- What acts do to heaps has been done to the heap without methods. -/
theorem heap {Q : Heap → Heap → Prop} (hrefl : ∀ h, Q h h)
    (htrans : ∀ {h h' h''}, Q h h' → Q h' h'' → Q h h'')
    (hact : ∀ {s t}, Act s t → Q s.heap t.heap) (hs : Reachable l s) :
    Q bareHeap s.heap := by
  induction hs with
  | fresh =>
    rw [fresh_eq, untraced_heap]
    exact (register_path 1 .all (bare l)).heap hrefl htrans hact
  | move _ hm ih =>
    have hstep : Path _ _ := .single hm
    exact htrans ih (hstep.heap hrefl htrans hact)

/-- What the heap without methods has stays what it is. -/
theorem keepsObjects (hs : Reachable l s) : bareHeap.KeepsObjects s.heap :=
  hs.heap .refl .trans Act.keepsObjects

/-- A script leads to reachable machines only. -/
theorem run (host : Nat) (steps : List Step) :
    Reachable l (Script.run host (Machine.fresh l) steps).2 :=
  Reachable.fresh.path (Script.run_path host _ steps)

/-- The prototype chain of every object ends. -/
theorem climb_size (h : Reachable l s) (a : Address) :
    s.heap.climb (s.heap.size + 1) (some a) = none := h.sound.acyclic.climb_size a

end Reachable
end Machine
end ScriptModel
