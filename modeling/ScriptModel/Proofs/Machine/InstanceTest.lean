import ScriptModel.Proofs.Heap.Above
import ScriptModel.Proofs.Machine.Delegation
import ScriptModel.Proofs.Machine.Reachable

/-!
# What an instance test answers

An instance test by a bound function is one by the function that the chain of bound
functions leads to, as many frames deeper. There the property `prototype` is read, through a
getter if it is one, and what comes of that read decides: an object is looked for above the
operand, and every other value ends the test with an exception. That goes for an
undetermined one too, although an undetermined operand leaves the test undetermined.
-/

namespace ScriptModel

/-- From `b` the function `f` is reached through `m` bound functions; it is not bound itself
and tests instances. -/
inductive Heap.TestsThrough (h : Heap) (f : Address) : Nat → Address → Prop where
  | scripted {g : Scripted Step} :
    (h.get f).callable = some (.scripted g) → g.testsInstances = true → h.TestsThrough f 0 f
  | native {g : Native Step} :
    (h.get f).callable = some (.native g) → h.TestsThrough f 0 f
  | bound {m : Nat} {b c : Address} {t : Value} {as : List Value} :
    h.TestsThrough f m b → (h.get c).callable = some (.bound ⟨b, t, as⟩) →
      h.TestsThrough f (m + 1) c

/-- Whatever leads to a function that tests instances tests them. -/
theorem Heap.TestsThrough.testsInstances {h : Heap} {f b : Address} {m : Nat}
    (hb : h.TestsThrough f m b) :
    (h.get b).callable.any Callable.testsInstances = true := by
  cases hb with
  | scripted hc hg =>
    rw [hc]
    exact hg
  | native hc =>
    rw [hc]
    rfl
  | bound _ hc =>
    rw [hc]
    rfl

/-- The test of the last function is the test of the first, each link and the first itself
in a frame. -/
theorem Heap.TestsThrough.hasInstance_wraps {h : Heap} {f b : Address} {m : Nat}
    (hb : h.TestsThrough f m b) (n : Nat) (v : Value) :
    Run.Wraps h ((dispatch n).testInstance f v) (m + 1)
      (dispatch (n + m + 1) (.hasInstance b v)) := by
  induction hb with
  | scripted hc hg =>
    refine .frame .none (fun s _ => ?_) ((dispatch n).serve_agreeOn (.hasInstance f v) hc)
    exact congrFun (if_pos hg) s
  | native hc =>
    exact .frame .none (fun _ _ => rfl) ((dispatch n).serve_agreeOn (.hasInstance f v) hc)
  | @bound m b c t as hb hc ih =>
    exact .frame ih ((dispatch (n + m + 1)).testBody_bound ⟨b, t, as⟩ c v hb.testsInstances)
      ((dispatch (n + m + 1)).serve_agreeOn (.hasInstance c v) hc)

/-- The same end with another value. -/
def Outcome.map {α β : Type} (g : α → β) : Outcome α → Outcome β
  | .done x => .done (g x)
  | .raised e => .raised e
  | .aborted e => .aborted e
  | .exhausted => .exhausted

theorem Run.map_apply {α β : Type} (g : α → β) (x : Run α) (s : Machine) :
    (do return g (← x) : Run β) s = ((x s).1.map g, (x s).2) := by
  rw [Run.bind_apply]
  rcases x s with ⟨_ | _ | _ | _, t⟩ <;> rfl

theorem Run.outcome_map {α β : Type} (g : α → β) (x : Run α) (s : Machine) :
    ((do return g (← x) : Run β) s).1 = (x s).1.map g := by
  rw [Run.map_apply]

namespace Machine

/-- Opening frames that are admitted is a path. -/
theorem nest_path {s : Machine} {m : Nat}
    (hroom : ∀ L, s.stack.limits.maxDepth = some L → s.stack.depth + m ≤ L) :
    Path s (s.nest m) := by
  induction m generalizing s with
  | zero => exact .refl
  | succ m ih =>
    rw [nest_succ]
    refine .head (.enter (admits_of_room hroom)) (ih fun L hL => ?_)
    have hle := hroom L hL
    show s.stack.depth + 1 + m ≤ L
    omega

/-- The machine on which an instance test through `m` bound functions reads `prototype`. -/
def testing (s : Machine) (b a : Address) (m : Nat) : Machine :=
  (s.withHeld ([.object b, .object a] ++ s.held)).nest (m + 1)

variable {s : Machine} {f b a : Address} {m : Nat}

/-- The outcome is that of the test by the function that the chain leads to. -/
theorem outcome_instanceOf (hb : s.heap.TestsThrough f m b) (n : Nat)
    (hroom : ∀ L, s.stack.limits.maxDepth = some L → s.stack.depth + (m + 1) ≤ L) :
    ((dispatch (n + m + 1)).instanceOf (.object a) (.object b) s).1 =
      ((dispatch n).testInstance f (.object a) (s.testing b a m)).1.map .boolean := by
  -- What the test holds is no part of the heap and the stack.
  have hserve := (hb.hasInstance_wraps n (.object a)).eq_nested
    (s := s.withHeld ([.object b, .object a] ++ s.held)) rfl hroom
  refine (Run.outcome_map _ ((dispatch (n + m + 1)).hasInstance b (.object a)) s).trans ?_
  exact congrArg (fun out => out.1.map Value.boolean) hserve

/-- What comes of reading `prototype` decides the test by a function that is not bound. -/
theorem testInstance_apply (inv : Invoker) (f a : Address) (u : Machine) :
    inv.testInstance f (.object a) u =
      match inv.get f .prototype u with
      | (.done (.object p), t) => (.done (t.heap.isAbove p a), t)
      | (.done _, t) => (.raised .prototypeNotObject, t)
      | (.raised e, t) => (.raised e, t)
      | (.aborted e, t) => (.aborted e, t)
      | (.exhausted, t) => (.exhausted, t) := by
  rcases hget : inv.get f .prototype u with ⟨r, t⟩
  dsimp only [Invoker.testInstance]
  cases r with
  | done w =>
    rw [Run.bind_of_done _ hget]
    cases w <;> rfl
  | raised e => exact Run.bind_of_raised _ hget
  | aborted e => exact Run.bind_of_aborted _ hget
  | exhausted => exact Run.bind_of_exhausted _ hget

/-- What comes of reading `prototype` decides an instance test on objects, through however
many bound functions it comes to the function that has it, as long as there is room for
their frames: an object is looked for above the operand, any other value ends the test with
an exception, and what ends the read ends the test. Only an undetermined operand leaves the
test undetermined, and then nothing is read. -/
theorem instance_test_decides {l : Limits} (hs : Reachable l s)
    (hb : s.heap.TestsThrough f m b) (n : Nat)
    (hroom : ∀ L, s.stack.limits.maxDepth = some L → s.stack.depth + (m + 1) ≤ L) :
    let answer := ((dispatch (n + m + 1)).instanceOf (.object a) (.object b) s).1
    (match (dispatch n).get f .prototype (s.testing b a m) with
      | (.done (.object p), t) =>
        ∃ yes, answer = .done (.boolean yes) ∧ (yes = true ↔ t.heap.Above p a)
      | (.done _, _) => answer = .raised .prototypeNotObject
      | (.raised e, _) => answer = .raised e
      | (.aborted e, _) => answer = .aborted e
      | (.exhausted, _) => answer = .exhausted) ∧
    ∀ (v g : Value), v = .unknown ∨ g = .unknown → ∀ inv : Invoker,
      inv.instanceOf v g s = (.done .unknown, s) := by
  intro answer
  have hanswer : answer = _ := outcome_instanceOf hb n hroom
  constructor
  · have htesting : Path s (s.testing b a m) :=
      (Act.hold _).path.trans (nest_path (s := s.withHeld _) hroom)
    have hread : Path (s.testing b a m) ((dispatch n).get f .prototype (s.testing b a m)).2 :=
      Run.congruence_path.get (Run.dispatch_path n) f .prototype _
    have hacyclic := (hs.path (htesting.trans hread)).sound.acyclic
    rcases hget : (dispatch n).get f .prototype (s.testing b a m) with ⟨r, t⟩
    rw [testInstance_apply, hget] at hanswer
    rw [hget] at hacyclic
    cases r with
    | done w =>
      cases w with
      | object p => exact ⟨t.heap.isAbove p a, hanswer, hacyclic.isAbove_iff⟩
      | _ => exact hanswer
    | _ => exact hanswer
  · rintro v g (rfl | rfl) inv
    · rfl
    · cases v <;> rfl

/-- The machine on which Function.prototype was given a `prototype`. -/
def withPrototype (s : Machine) (v : Value) : Machine :=
  ((dispatch 1).put .functionPrototype .prototype v false false s).2

theorem withPrototype_spec {l : Limits} (hs : Reachable l s) (v : Value) :
    Reachable l (s.withPrototype v) ∧ (s.withPrototype v).stack = s.stack :=
  ⟨hs.path (Run.congruence_path.put (Run.dispatch_path 1) _ _ v false false s),
    (Run.congruence_logged.put (Run.dispatch_logged 1) _ _ v false false s).1⟩

/-- The machine on which Function.prototype was bound; the bound function is at
`s.heap.next`. -/
def withBound (s : Machine) : Machine :=
  s.withHeap (s.heap.alloc (.function (.bound ⟨.functionPrototype, .null, []⟩) none))

@[simp] theorem withBound_stack (s : Machine) : s.withBound.stack = s.stack := rfl

theorem withBound_spec {l : Limits} (hs : Reachable l s) :
    Reachable l s.withBound ∧
      s.withBound.heap.TestsThrough .functionPrototype 1 s.heap.next := by
  have hbound : Reachable l s.withBound := hs.path (Act.alloc _).path
  have hidle : (s.withBound.heap.get .functionPrototype).callable =
      some (.native ⟨"", 0, .builtin .idle, none⟩) :=
    hbound.keepsObjects.callable_eq rfl
  have hlink : (s.withBound.heap.get s.heap.next).callable =
      some (.bound ⟨.functionPrototype, .null, []⟩) := by
    rw [withBound, withHeap, Heap.get_alloc_next]
    rfl
  exact ⟨hbound, .bound (.native hidle) hlink⟩

/-- A fresh machine with a function to test by, which leads to Function.prototype in two
frames. -/
theorem fresh_with_test (v : Value) :
    ∃ b, Reachable .standard ((fresh .standard).withPrototype v).withBound ∧
      ((fresh .standard).withPrototype v).withBound.heap.TestsThrough .functionPrototype 1 b ∧
      ∀ L, ((fresh .standard).withPrototype v).withBound.stack.limits.maxDepth = some L →
        ((fresh .standard).withPrototype v).withBound.stack.depth + (1 + 1) ≤ L := by
  obtain ⟨hs, hstack⟩ := withPrototype_spec .fresh v
  obtain ⟨hbound, hb⟩ := withBound_spec hs
  refine ⟨_, hbound, hb, fun L hL => ?_⟩
  rw [withBound_stack, hstack, stack_fresh] at hL ⊢
  cases hL
  decide

/-- Function.prototype passes a test that looks for Object.prototype. -/
theorem functionPrototype_passes :
    let s := ((fresh .standard).withPrototype (.object .objectPrototype)).withBound
    ∃ b, Reachable .standard s ∧ s.heap.TestsThrough .functionPrototype 1 b ∧
      (∀ L, s.stack.limits.maxDepth = some L → s.stack.depth + (1 + 1) ≤ L) ∧
      ((dispatch 2).instanceOf (.object .functionPrototype) (.object b) s).1 =
        .done (.boolean true) := by
  intro s
  obtain ⟨b, hs, hb, hroom⟩ := fresh_with_test (.object .objectPrototype)
  have hprototype : (s.heap.get .functionPrototype).own? .prototype =
      some (.data ⟨.object .objectPrototype, true, true, true⟩) := by decide +kernel
  have hlink : s.heap.Linked .functionPrototype .objectPrototype := by
    unfold Heap.Linked
    decide +kernel
  have hanswer := (instance_test_decides (a := .functionPrototype) hs hb 0 hroom).1
  rw [Invoker.get_of_own (s := s.testing b .functionPrototype 1) hprototype] at hanswer
  obtain ⟨yes, hyes, habove⟩ := hanswer
  rw [habove.mpr (.single hlink)] at hyes
  exact ⟨b, hs, hb, hroom, hyes⟩

/-- With an undetermined `prototype` the test is not left undetermined. -/
theorem undetermined_prototype_raises :
    let s := ((fresh .standard).withPrototype .unknown).withBound
    ∃ b, Reachable .standard s ∧ s.heap.TestsThrough .functionPrototype 1 b ∧
      (∀ L, s.stack.limits.maxDepth = some L → s.stack.depth + (1 + 1) ≤ L) ∧
      (∀ inv : Invoker, inv.get .functionPrototype .prototype s = (.done .unknown, s)) ∧
      ((dispatch 2).instanceOf (.object .functionPrototype) (.object b) s).1 =
        .raised .prototypeNotObject := by
  intro s
  obtain ⟨b, hs, hb, hroom⟩ := fresh_with_test .unknown
  have hprototype : (s.heap.get .functionPrototype).own? .prototype =
      some (.data ⟨.unknown, true, true, true⟩) := by decide +kernel
  refine ⟨b, hs, hb, hroom, fun inv => Invoker.get_of_own hprototype, ?_⟩
  rw [outcome_instanceOf hb 0 hroom, testInstance_apply,
    Invoker.get_of_own (s := s.testing b .functionPrototype 1) hprototype]
  rfl

end Machine
end ScriptModel
