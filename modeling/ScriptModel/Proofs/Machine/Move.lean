import Mathlib.Logic.Relation
import ScriptModel.Script
import ScriptModel.Proofs.Run.Serving

/-!
# Moves of the machine

What a run does to the machine, one move at a time. An act is a move inside a frame; the
other moves open, close and refuse frames. Every run is a sequence of moves, so a property
of machines that no move spoils holds at every moment of every run: `Path` is all that such
a property needs to know about runs.
-/

namespace ScriptModel

/-- The event is about a frame. -/
def Event.isFrame : Event → Bool
  | entered _ => true
  | left _ => true
  | frameRefused _ => true
  | _ => false

namespace Machine

/-- One change of the machine inside a frame. -/
inductive Act : Machine → Machine → Prop where
  | note {s : Machine} (e : Event) : e.isFrame = false → Act s (s.note e)
  | aside {s : Machine} (names : List (String × Value)) (diagnostics : List Diagnostic) :
    Act s { s with names := names, diagnostics := diagnostics }
  | hold {s : Machine} (vs : List Value) : Act s { s with held := vs }
  | sweep {s : Machine} (inHand : List Value) : Act s (s.sweep inHand)
  | alloc {s : Machine} (o : Object) : Act s (s.withHeap (s.heap.alloc o))
  | define {s : Machine} {o : Address} {k : Key} {f : Fragment} {obj : Object} :
    (s.heap.get o).define k f false = .ok obj → Act s (s.withHeap (s.heap.set o obj))
  | override {s : Machine} {o : Address} {k : Key} {f : Fragment} {obj : Object} :
    (s.heap.get o).define k f true = .ok obj →
      Act s ((s.note (.overrode o)).withHeap (s.heap.set o obj))
  | delete {s : Machine} {o : Address} {k : Key} {obj : Object} :
    (s.heap.get o).delete k = .ok obj → Act s (s.withHeap (s.heap.set o obj))
  | preventExtensions {s : Machine} (o : Address) :
    Act s (s.withHeap (s.heap.modify o fun obj => { obj with extensible := false }))
  | setPrototype {s : Machine} {o : Address} {p : Option Address} {h : Heap} :
    s.heap.setPrototype o p = some h → Act s (s.withHeap h)

/-- The limit admits one more frame. -/
def admits (s : Machine) : Bool := s.stack.limits.admits s.stack.depth

/-- Where there is room for frames, one is admitted. -/
theorem admits_of_room {s : Machine} {m : Nat}
    (hroom : ∀ L, s.stack.limits.maxDepth = some L → s.stack.depth + (m + 1) ≤ L) :
    s.admits = true := by
  unfold admits Limits.admits
  split
  · rfl
  · rename_i L hL
    have hle := hroom L hL
    exact decide_eq_true (by omega)

/-- The machine with one more frame open. -/
def entered (s : Machine) : Machine :=
  { s with stack := { s.stack with depth := s.stack.depth + 1 } }.note
    (.entered (s.stack.depth + 1))

/-- The machine with one frame closed. -/
def left (s : Machine) : Machine :=
  { s with stack := s.stack.leave }.note (.left s.stack.leave.depth)

/-- The machine with one frame refused. -/
def refused (s : Machine) : Machine := s.note (.frameRefused s.stack.depth)

/-- The machine without its trace. -/
def untraced (s : Machine) : Machine := { s with trace := [] }

@[simp] theorem untraced_stack (s : Machine) : s.untraced.stack = s.stack := rfl

@[simp] theorem untraced_heap (s : Machine) : s.untraced.heap = s.heap := rfl

/-- A fresh machine is a bare one on which the built-ins were registered. -/
theorem fresh_eq (l : Limits) :
    fresh l = ((dispatch 1).register .all (bare l)).2.untraced := rfl

/-- One change of the machine. -/
inductive Move : Machine → Machine → Prop where
  | act {s t : Machine} : Act s t → Move s t
  | enter {s : Machine} : s.admits = true → Move s s.entered
  | leave {s : Machine} : Move s s.left
  | refuse {s : Machine} : s.admits = false → Move s s.refused

/-- Any number of moves. -/
abbrev Path : Machine → Machine → Prop := Relation.ReflTransGen Move

theorem Act.path {s t : Machine} (h : Act s t) : Path s t := .single (.act h)

/-- What no move spoils, no path spoils. -/
theorem Path.preserves {Inv : Machine → Prop} (hmove : ∀ {s t}, Move s t → Inv s → Inv t)
    {s t : Machine} (h : Path s t) (hs : Inv s) : Inv t := by
  induction h with
  | refl => exact hs
  | tail _ hm ih => exact hmove hm ih

/-- A preorder on machines that contains the moves contains the paths. -/
theorem Path.lift {Q : Machine → Machine → Prop} (hrefl : ∀ s, Q s s)
    (htrans : ∀ {s t u}, Q s t → Q t u → Q s u) (hmove : ∀ {s t}, Move s t → Q s t)
    {s t : Machine} (h : Path s t) : Q s t :=
  h.preserves (fun hm hs => htrans hs (hmove hm)) (hrefl s)

/-- Frames leave the heap alone, so a preorder on heaps that contains the acts contains the
paths. -/
theorem Path.heap {Q : Heap → Heap → Prop} (hrefl : ∀ h, Q h h)
    (htrans : ∀ {h h' h''}, Q h h' → Q h' h'' → Q h h'')
    (hact : ∀ {s t}, Act s t → Q s.heap t.heap) {s t : Machine} (h : Path s t) :
    Q s.heap t.heap := by
  refine h.lift (Q := fun s t => Q s.heap t.heap) (fun s => hrefl s.heap) htrans fun hm => ?_
  cases hm with
  | act ha => exact hact ha
  | enter => exact hrefl _
  | leave => exact hrefl _
  | refuse => exact hrefl _

/-! ## Moments of a run -/

/-- A run, moment by moment. -/
structure Timeline (s t : Machine) where
  length : Nat
  moment : Nat → Machine
  first : moment 0 = s
  last : moment length = t
  move : ∀ i < length, Move (moment i) (moment (i + 1))

namespace Timeline

variable {s t u : Machine}

/-- No time passes. -/
def still (s : Machine) : Timeline s s :=
  ⟨0, fun _ => s, rfl, rfl, fun _ hi => absurd hi (Nat.not_lt_zero _)⟩

/-- The run with one move more. -/
def extend (T : Timeline s t) (h : Move t u) : Timeline s u where
  length := T.length + 1
  moment i := if i ≤ T.length then T.moment i else u
  first := by rw [if_pos (Nat.zero_le _), T.first]
  last := if_neg (by omega)
  move i hi := by
    rw [if_pos (by omega)]
    by_cases hlast : i = T.length
    · rw [if_neg (by omega), hlast, T.last]
      exact h
    · rw [if_pos (by omega)]
      exact T.move i (by omega)

/-- Every moment is reached by a path. -/
theorem path (T : Timeline s t) {m : Nat} (hm : m ≤ T.length) : Path s (T.moment m) := by
  induction m with
  | zero => rw [T.first]
  | succ m ih => exact (ih (by omega)).tail (T.move m hm)

end Timeline

/-- A path has a run, moment by moment. -/
theorem Path.timeline {s t : Machine} (h : Path s t) : Nonempty (Timeline s t) := by
  induction h with
  | refl => exact ⟨.still s⟩
  | tail _ hm ih =>
    obtain ⟨T⟩ := ih
    exact ⟨T.extend hm⟩

end Machine

/-! ## Acts are what primitives do -/

namespace Run

open Machine

variable {α : Type}

/-- A refusal changes nothing. -/
@[simp] theorem machine_reject (throws : Bool) (e : Exception) (s : Machine) :
    (reject throws e s).2 = s := by
  cases throws <;> rfl

theorem define_act (o : Address) (k : Key) (f : Fragment) (throws overrides : Bool)
    (s : Machine) :
    (define o k f throws overrides s).2 = s ∨
      Act s (define o k f throws overrides s).2 := by
  cases overrides with
  | false =>
    cases hd : (s.heap.get o).define k f false with
    | ok obj =>
      right
      simpa [define, hd] using Act.define hd
    | error e =>
      left
      simp [define, hd]
  | true =>
    right
    cases hd : (s.heap.get o).define k f true with
    | ok obj =>
      have ha := Act.override hd
      simpa [define, Machine.note, hd] using ha
    | error e =>
      have ha := Act.note (s := s) (.overrode o) rfl
      simpa [define, Machine.note, hd] using ha

theorem delete_act (o : Address) (k : Key) (throws : Bool) (s : Machine) :
    (delete o k throws s).2 = s ∨ Act s (delete o k throws s).2 := by
  cases hd : (s.heap.get o).delete k with
  | ok obj =>
    right
    simpa [delete, hd] using Act.delete hd
  | error e =>
    left
    simp [delete, hd]

theorem setPrototype_act (o : Address) (p : Option Address) (s : Machine) :
    (setPrototype o p s).2 = s ∨ Act s (setPrototype o p s).2 := by
  cases hp : s.heap.setPrototype o p with
  | some h =>
    right
    simpa [setPrototype, hp] using Act.setPrototype hp
  | none =>
    left
    simp [setPrototype, hp]

theorem checkArguments_act (count : Nat) (s : Machine) :
    (checkArguments count s).2 = s ∨ Act s (checkArguments count s).2 := by
  cases hc : s.stack.checkArguments count with
  | ok u =>
    left
    simp [checkArguments, hc]
  | error e =>
    right
    simpa [checkArguments, hc] using Act.note (s := s) (.argumentsRefused count) rfl

/-- A primitive leaves the machine as it is, or does one act. -/
theorem Primitive.act {x : Run α} (hx : Primitive x) (s : Machine) :
    (x s).2 = s ∨ Act s (x s).2 := by
  cases hx with
  | pure a => exact .inl rfl
  | raise e => exact .inl rfl
  | onHeap f => exact .inl rfl
  | onDepth f => exact .inl rfl
  | aside f => exact .inr (.aside _ _)
  | log v => exact .inr (.note _ rfl)
  | alloc o => exact .inr (.alloc o)
  | define o k f throws overrides => exact define_act o k f throws overrides s
  | delete o k throws => exact delete_act o k throws s
  | preventExtensions o => exact .inr (.preventExtensions o)
  | setPrototype o p => exact setPrototype_act o p s
  | checkArguments count => exact checkArguments_act count s

/-- Whatever sequences of acts do, runs inside a frame do. -/
theorem Congruence.ofActs {Q : Machine → Machine → Prop} (hrefl : ∀ s, Q s s)
    (htrans : ∀ {s t u}, Q s t → Q t u → Q s u) (hact : ∀ {s t}, Act s t → Q s t) :
    Congruence fun _ x _ => ∀ s, Q s (x s).2 where
  primitive hx s := by
    rcases hx.act s with he | ha
    · rw [he]
      exact hrefl s
    · exact hact ha
  bind {α β x y f g} hx hf s := by
    have h := hx s
    rw [bind_apply]
    rcases hs : x s with ⟨_ | _ | _ | _, t⟩ <;> rw [hs] at h
    · exact htrans h (hf _ t)
    all_goals exact h
  attempt {α x y} hx s := by
    have h := hx s
    unfold Run.attempt
    rcases hs : x s with ⟨_ | _ | _ | _, t⟩ <;> rw [hs] at h <;> exact h
  contained {α x y} hx s := by
    have h := hx s
    unfold Run.contained
    rcases hs : x s with ⟨_ | _ | _ | _, t⟩ <;> rw [hs] at h <;> exact h
  holding {α x y} vs hx s :=
    -- One act holds the values and another lets them go.
    htrans (hact (.hold (vs ++ s.held))) (htrans (hx _) (hact (.hold s.held)))
  swept {α x y} inHand hx s := by
    have h := hx s
    unfold Run.swept
    rcases hs : x s with ⟨_ | _ | _ | _, t⟩ <;> rw [hs] at h <;>
      exact htrans h (hact (.sweep _))

/-! ## Runs are paths -/

/-- A frame that is admitted is opened before the computation and closed after it, whatever
the computation came to. -/
theorem framed_of_admits (x : Run α) {s : Machine} (h : s.admits = true) :
    framed x s = ((x s.entered).1, (x s.entered).2.left) := by
  unfold framed
  rw [CallStack.enter_of_admits h]
  rfl

/-- In a frame that is not admitted nothing is computed. -/
theorem framed_of_not_admits (x : Run α) {s : Machine} (h : s.admits = false) :
    framed x s = (.raised .depthExceeded, s.refused) := by
  unfold framed
  rw [CallStack.enter_of_not_admits h]
  rfl

/-- A frame around a run that is a path. -/
theorem framed_path {x : Run α} (hx : ∀ s, Path s (x s).2) (s : Machine) :
    Path s (framed x s).2 := by
  cases ha : s.admits with
  | false =>
    rw [framed_of_not_admits x ha]
    exact .single (.refuse ha)
  | true =>
    rw [framed_of_admits x ha]
    exact .head (.enter ha) (.tail (hx _) .leave)

theorem congruence_path : Congruence fun _ x _ => ∀ s, Path s (x s).2 :=
  Congruence.ofActs (fun _ => .refl) .trans Act.path

theorem dispatch_path (n : Nat) :
    Invoker.Corresponds (fun _ x _ => ∀ s, Path s (x s).2) (dispatch n) (dispatch n) :=
  congruence_path.dispatch framed_path (fun _ _ => .refl) (fun _ _ => .refl) n

theorem step_path (n : Nat) (act : Activation) (x : Step) (s : Machine) :
    Path s (x.run (dispatch n) act s).2 :=
  congruence_path.step (dispatch_path n) act (fun _ _ => .refl) x s

theorem runAll_path (n : Nat) (act : Activation) (xs : List Step) (s : Machine) :
    Path s (Step.runAll (dispatch n) act xs s).2 :=
  congruence_path.stepAll (dispatch_path n) act (fun _ _ => .refl) xs s

end Run

namespace Script

open Machine

/-- A step of a script is a run, swept at its end. -/
theorem step_path (host : Nat) (s : Machine) (x : Step) : Path s (step host s x).2 :=
  Run.congruence_path.swept (y := x.run (invoker host s) .top) _
    (fun t => Run.step_path _ .top x t) s

/-- A script is a path of the machine. -/
theorem run_path (host : Nat) (s : Machine) (xs : List Step) :
    Path s (run host s xs).2 := by
  induction xs generalizing s with
  | nil => exact .refl
  | cons x xs ih => exact (step_path host s x).trans (ih _)

end Script
end ScriptModel
