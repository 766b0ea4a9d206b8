import ScriptModel.Proofs.Heap.Living
import ScriptModel.Proofs.Machine.Move

/-!
# What runs see of what is held

A run cannot tell which values are held around it, only what they keep alive. When two lists
of values retain one another, a run does the same whichever of them is held. Functions
matter here: who holds a function holds what it refers to, and that stays so during the run,
because nothing changes what a function is.
-/

namespace ScriptModel

namespace Heap

/-- What is a function in the first heap is the same function in the second. -/
def KeepsCallables (h h' : Heap) : Prop :=
  ∀ a c, (h.get a).callable = some c → (h'.get a).callable = some c

theorem KeepsCallables.refl (h : Heap) : h.KeepsCallables h := fun _ _ hc => hc

theorem KeepsCallables.trans {h h' h'' : Heap} (hk : h.KeepsCallables h')
    (hk' : h'.KeepsCallables h'') : h.KeepsCallables h'' :=
  fun a c hc => hk' a c (hk a c hc)

theorem KeepsObjects.keepsCallables {h h' : Heap} (hk : h.KeepsObjects h') :
    h.KeepsCallables h' :=
  fun _ _ hc => hk.callable_eq hc

theorem KeepsCallables.retained {h h' : Heap} (hk : h.KeepsCallables h')
    {roots : List Address}
    {a : Address} (ha : h.Retained roots a) : h'.Retained roots a := by
  induction ha with
  | root ha => exact .root ha
  | @through a b _ hr ih =>
    refine .through ih ?_
    unfold Object.fixedReferences at hr ⊢
    cases hb : (h.get b).callable with
    | none =>
      rw [hb] at hr
      cases hr
    | some c =>
      rw [hb] at hr
      rw [hk b c hb]
      exact hr

/-- The values of each list are retained by those of the other. -/
structure SameHold (h : Heap) (vs ws : List Value) : Prop where
  left : ∀ a ∈ vs.filterMap Value.address?, h.Retained (ws.filterMap Value.address?) a
  right : ∀ a ∈ ws.filterMap Value.address?, h.Retained (vs.filterMap Value.address?) a

namespace SameHold

variable {h h' : Heap} {vs ws : List Value}

theorem symm (hw : h.SameHold vs ws) : h.SameHold ws vs := ⟨hw.right, hw.left⟩

theorem keeps (hw : h.SameHold vs ws) (hk : h.KeepsCallables h') : h'.SameHold vs ws :=
  ⟨fun a ha => hk.retained (hw.left a ha), fun a ha => hk.retained (hw.right a ha)⟩

/-- Values that are held beyond do not matter. -/
theorem append_left (us : List Value) (hw : ∀ a ∈ vs.filterMap Value.address?,
    h.Retained (ws.filterMap Value.address?) a) :
    ∀ a ∈ (us ++ vs).filterMap Value.address?,
      h.Retained ((us ++ ws).filterMap Value.address?) a := by
  intro a ha
  rw [List.filterMap_append] at ha ⊢
  rcases List.mem_append.mp ha with ha | ha
  · exact .root (List.mem_append_left _ ha)
  · exact (hw a ha).mono fun b hb => .root (List.mem_append_right _ hb)

theorem append (hw : h.SameHold vs ws) (us : List Value) :
    h.SameHold (us ++ vs) (us ++ ws) :=
  ⟨append_left us hw.left, append_left us hw.right⟩

end SameHold
end Heap

namespace Machine

theorem Act.keepsObjects {s t : Machine} (h : Act s t) : s.heap.KeepsObjects t.heap := by
  cases h with
  | note e he => exact .refl _
  | aside names diagnostics => exact .refl _
  | hold vs => exact .refl _
  | sweep inHand => exact .release _ _
  | alloc o => exact .alloc _ o
  | define hd => exact .modify (Object.cls_of_define hd) (Object.callable_of_define hd)
  | override hd => exact .modify (Object.cls_of_define hd) (Object.callable_of_define hd)
  | delete hd => exact .modify (Object.cls_of_delete hd) (Object.callable_of_delete hd)
  | preventExtensions o => exact .modify rfl rfl
  | setPrototype hp => exact .setPrototype hp

theorem Path.keepsObjects {s t : Machine} (h : Path s t) : s.heap.KeepsObjects t.heap :=
  h.heap .refl .trans Act.keepsObjects

/-- The machine with other values held. -/
def withHeld (s : Machine) (ws : List Value) : Machine := { s with held := ws }

@[simp] theorem withHeld_heap (s : Machine) (ws : List Value) :
    (s.withHeld ws).heap = s.heap := rfl

@[simp] theorem withHeld_stack (s : Machine) (ws : List Value) :
    (s.withHeld ws).stack = s.stack :=
  rfl

@[simp] theorem note_withHeld (s : Machine) (ws : List Value) (e : Event) :
    (s.withHeld ws).note e = (s.note e).withHeld ws := rfl

theorem roots_withHeld_left (inHand : List Address) {s : Machine} {ws : List Value}
    (hw : s.heap.SameHold s.held ws) :
    ∀ a ∈ s.roots ++ inHand, s.heap.Retained ((s.withHeld ws).roots ++ inHand) a := by
  intro a ha
  rcases List.mem_append.mp ha with ha | ha
  · rcases List.mem_append.mp ha with ha | ha
    · exact .root (List.mem_append_left _ (List.mem_append_left _ ha))
    · refine (hw.left a ha).mono fun b hb => .root ?_
      exact List.mem_append_left _ (List.mem_append_right _ hb)
  · exact .root (List.mem_append_right _ ha)

/-- A sweep sees no difference. -/
theorem sweep_withHeld {s : Machine} {ws : List Value} (inHand : List Value)
    (hw : s.heap.SameHold s.held ws) :
    (s.withHeld ws).sweep inHand = (s.sweep inHand).withHeld ws := by
  have hback : (s.withHeld ws).heap.SameHold (s.withHeld ws).held s.held := hw.symm
  have hrelease := Heap.release_congr
    (roots_withHeld_left (inHand.filterMap Value.address?) hw) (roots_withHeld_left _ hback)
  show (s.withHeld ws).withHeap (s.heap.release _) = (s.withHeap (s.heap.release _)).withHeld ws
  rw [← hrelease]
  rfl

end Machine

namespace Run

open Machine

variable {α : Type}

/-- The second computation does the same as the first when other values are held that retain
the same. Both give back what was held, and neither changes a function. -/
def Heedless (α : Type) (x y : Run α) : Prop :=
  ∀ (s : Machine) (ws : List Value), s.heap.SameHold s.held ws →
    y (s.withHeld ws) = ((x s).1, (x s).2.withHeld ws) ∧ (x s).2.held = s.held ∧
      s.heap.KeepsCallables (x s).2.heap

/-- A run gives back what was held. -/
theorem Heedless.held {x : Run α} (hx : Heedless α x x) (s : Machine) :
    (x s).2.held = s.held :=
  (hx s s.held ⟨fun _ ha => .root ha, fun _ ha => .root ha⟩).2.1

theorem reject_withHeld (throws : Bool) (e : Exception) (s : Machine) (ws : List Value) :
    reject throws e (s.withHeld ws) =
      ((reject throws e s).1, (reject throws e s).2.withHeld ws) := by
  cases throws <;> rfl

/-- What touches the machine does not look at what is held. -/
theorem Primitive.withHeld {x : Run α} (hx : Primitive x) (s : Machine) (ws : List Value) :
    x (s.withHeld ws) = ((x s).1, (x s).2.withHeld ws) := by
  cases hx with
  | define o k f throws overrides =>
    simp only [Run.define, note_withHeld]
    cases overrides <;>
    · simp only [Bool.false_eq_true, if_false, if_true, withHeld_heap]
      split
      · rfl
      · exact reject_withHeld throws _ _ ws
  | delete o k throws =>
    simp only [Run.delete, withHeld_heap]
    split
    · rfl
    · exact reject_withHeld throws _ s ws
  | setPrototype o p =>
    simp only [Run.setPrototype, withHeld_heap]
    split <;> rfl
  | checkArguments count =>
    simp only [Run.checkArguments, withHeld_stack]
    split <;> rfl
  | _ => rfl

theorem Primitive.held {x : Run α} (hx : Primitive x) (s : Machine) :
    (x s).2.held = s.held := by
  have h := hx.withHeld s s.held
  exact congrArg (fun out => out.2.held) h

theorem Primitive.keepsCallables {x : Run α} (hx : Primitive x) (s : Machine) :
    s.heap.KeepsCallables (x s).2.heap := by
  rcases hx.act s with he | ha
  · rw [he]
    exact .refl _
  · exact ha.keepsObjects.keepsCallables

theorem congruence_heedless : Congruence Heedless where
  primitive hx s ws _ := ⟨hx.withHeld s ws, hx.held s, hx.keepsCallables s⟩
  bind {α β x y f g} hx hf s ws hw := by
    obtain ⟨heq, hheld, hkeep⟩ := hx s ws hw
    rw [bind_apply, bind_apply, heq]
    rcases hr : x s with ⟨_ | _ | _ | _, t⟩ <;> rw [hr] at hheld hkeep
    · obtain ⟨heq', hheld', hkeep'⟩ := hf _ t ws (hheld ▸ hw.keeps hkeep)
      exact ⟨heq', hheld'.trans hheld, hkeep.trans hkeep'⟩
    all_goals exact ⟨rfl, hheld, hkeep⟩
  attempt {α x y} hx s ws hw := by
    obtain ⟨heq, hheld, hkeep⟩ := hx s ws hw
    unfold Run.attempt
    rw [heq]
    rcases hr : x s with ⟨_ | _ | _ | _, t⟩ <;> rw [hr] at hheld hkeep <;>
      exact ⟨rfl, hheld, hkeep⟩
  contained {α x y} hx s ws hw := by
    obtain ⟨heq, hheld, hkeep⟩ := hx s ws hw
    unfold Run.contained
    rw [heq]
    rcases hr : x s with ⟨_ | _ | _ | _, t⟩ <;> rw [hr] at hheld hkeep <;>
      exact ⟨rfl, hheld, hkeep⟩
  holding {α x y} vs hx s ws hw := by
    -- Both runs hold the same values on top of what they held before.
    obtain ⟨heq, _, hkeep⟩ := hx (s.withHeld (vs ++ s.held)) (vs ++ ws) (hw.append vs)
    have hy : y ((s.withHeld ws).withHeld (vs ++ ws)) = _ := heq
    refine ⟨?_, rfl, hkeep⟩
    show ((y ((s.withHeld ws).withHeld (vs ++ ws))).1,
      (y ((s.withHeld ws).withHeld (vs ++ ws))).2.withHeld ws) = _
    rw [hy]
    rfl
  swept {α x y} inHand hx s ws hw := by
    -- Nothing but a sweep looks at what is held, and it looks at what that keeps alive.
    obtain ⟨heq, hheld, hkeep⟩ := hx s ws hw
    have hsweep : ∀ vs, ((x s).2.withHeld ws).sweep vs = ((x s).2.sweep vs).withHeld ws :=
      fun vs => sweep_withHeld vs (hheld ▸ hw.keeps hkeep)
    have hkeep' : ∀ vs, s.heap.KeepsCallables ((x s).2.sweep vs).heap :=
      fun vs => hkeep.trans (Heap.KeepsObjects.release _ _).keepsCallables
    unfold Run.swept
    rw [heq]
    rcases hr : x s with ⟨_ | _ | _ | _, t⟩ <;> rw [hr] at hheld hsweep hkeep' <;>
      exact ⟨Prod.ext rfl (hsweep _), hheld, hkeep' _⟩

theorem framed_heedless {x y : Run α} (hx : Heedless α x y) :
    Heedless α (framed x) (framed y) := by
  intro s ws hw
  have hadmits : (s.withHeld ws).admits = s.admits := rfl
  cases ha : s.admits with
  | false =>
    rw [framed_of_not_admits x ha, framed_of_not_admits y (hadmits.trans ha)]
    exact ⟨rfl, rfl, .refl _⟩
  | true =>
    obtain ⟨heq, hheld, hkeep⟩ := hx s.entered ws hw
    have hy : y (s.withHeld ws).entered = _ := heq
    rw [framed_of_admits x ha, framed_of_admits y (hadmits.trans ha), hy]
    exact ⟨rfl, hheld, hkeep⟩

/-- Dispatchers do not look at what is held, but for what it keeps alive. -/
theorem dispatch_heedless (n : Nat) :
    Invoker.Corresponds Heedless (dispatch n) (dispatch n) :=
  congruence_heedless.dispatch framed_heedless (fun _ _ _ _ => ⟨rfl, rfl, .refl _⟩)
    (fun _ _ _ _ => ⟨rfl, rfl, .refl _⟩) n

/-- It does not matter which of two lists is held if they retain the same. -/
theorem holding_congr {x : Run α} (hx : Heedless α x x) {s : Machine} {vs ws : List Value}
    (hw : s.heap.SameHold (vs ++ s.held) (ws ++ s.held)) :
    holding vs x s = holding ws x s := by
  obtain ⟨heq, _, _⟩ := hx (s.withHeld (vs ++ s.held)) (ws ++ s.held) hw
  have hy : x (s.withHeld (ws ++ s.held)) = _ := heq
  show ((x (s.withHeld (vs ++ s.held))).1, (x (s.withHeld (vs ++ s.held))).2.withHeld s.held) =
    ((x (s.withHeld (ws ++ s.held))).1, (x (s.withHeld (ws ++ s.held))).2.withHeld s.held)
  rw [hy]
  rfl

end Run
end ScriptModel
