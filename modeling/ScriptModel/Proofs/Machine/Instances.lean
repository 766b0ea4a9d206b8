import ScriptModel.Proofs.Machine.Gate
import ScriptModel.Proofs.Machine.InstanceTest
import ScriptModel.Proofs.Machine.Reading

/-!
# Two ways to ask for an instance

`v instanceof f` and `f.prototype.isPrototypeOf(v)` ask whether one object is above another.
The operator finds the object behind however many bound functions, the method has it as its
receiver. Where `prototype` is a value, both have the same answer, and all that is left of
the question is the frames in the trace.
-/

namespace ScriptModel

namespace Machine

/-- The machine after `m` frames were opened one in another and closed again, with nothing
done inside. -/
def visited (m : Nat) (s : Machine) : Machine :=
  { s with
    trace := Event.closings (s.stack.depth + m) m ++
      (Event.openings s.stack.depth m ++ s.trace) }

theorem unnest_nest (m : Nat) (s : Machine) : (s.nest m).unnest m = s.visited m := by
  have hdepth : s.stack.depth + m - m = s.stack.depth := Nat.add_sub_cancel _ _
  simp only [nest, unnest, visited, hdepth]

theorem left_entered (s : Machine) : s.entered.left = s.visited 1 := by
  rw [← unnest_nest, nest_succ, unnest_succ]
  rfl

@[simp] theorem untraced_visited (m : Nat) (s : Machine) :
    (s.visited m).untraced = s.untraced :=
  rfl

end Machine

namespace Run

open Machine

variable {α : Type} {x : Run α} {s : Machine} {r : Outcome α}

/-- Of a computation that leaves the machine alone, the frames around it are left. -/
theorem nested_of_same {m : Nat} (h : x (s.nest m) = (r, s.nest m)) :
    nested m x s = (r, s.visited m) := by
  rw [nested, h, unnest_nest]

theorem framed_of_same (ha : s.admits = true) (h : x s.entered = (r, s.entered)) :
    framed x s = (r, s.visited 1) := by
  rw [framed_of_admits x ha, h, left_entered]

end Run

/-! ## The question -/

/-- The value is an object that `p` is above. -/
def Value.isBelow (h : Heap) (p : Address) : Value → Bool
  | .object a => h.isAbove p a
  | _ => false

theorem Heap.Acyclic.isBelow_iff {h : Heap} (hh : h.Acyclic) {p : Address} {v : Value} :
    v.isBelow h p = true ↔ ∃ a, v = .object a ∧ h.Above p a := by
  constructor
  · intro hv
    cases v with
    | object a => exact ⟨a, rfl, hh.isAbove_iff.mp hv⟩
    | _ => cases hv
  · rintro ⟨a, rfl, ha⟩
    exact hh.isAbove_iff.mpr ha

theorem Heap.Acyclic.not_isBelow_self {h : Heap} (hh : h.Acyclic) (p : Address) :
    (Value.object p).isBelow h p = false := by
  rw [← Bool.not_eq_true]
  exact fun hp => hh.not_above_self p (hh.isAbove_iff.mp hp)

/-! ## Asked by the operator -/

namespace Invoker

open Machine

variable {inv : Invoker} {s : Machine} {f b c p : Address} {d : DataProperty} {v : Value}

/-- A value that is no object is an instance of nothing, and nothing is asked of the
function. -/
theorem testInstance_of_not_object (hv : v.isObject = false) :
    inv.testInstance f v s = (.done false, s) := by
  cases v with
  | object a => cases hv
  | _ => rfl

/-- Where a value stands under `prototype`, the test looks for it and does nothing else. -/
theorem testInstance_of_finds (hh : s.heap.Acyclic)
    (hf : s.heap.Finds .prototype f c (.data d)) (hd : d.value = .object p) :
    inv.testInstance f v s = (.done (v.isBelow s.heap p), s) := by
  have hget : inv.get f .prototype s = (.done (.object p), s) := by
    rw [inv.get_of_data (hh.find?_iff.mpr hf), hd]
  cases v with
  | object a =>
    rw [testInstance_apply, hget]
    rfl
  | _ => rfl

/-- A test that leaves the machine alone leaves it alone behind bound functions too, whoever
holds the operands. -/
theorem instanceOf_of_same {m n : Nat} {yes : Bool} (hb : s.heap.TestsThrough f m b)
    (hroom : ∀ L, s.stack.limits.maxDepth = some L → s.stack.depth + (m + 1) ≤ L)
    (hv : v ≠ .unknown)
    (htest : ∀ t : Machine, t.heap = s.heap →
      (dispatch n).testInstance f v t = (.done yes, t)) :
    (dispatch (n + m + 1)).instanceOf v (.object b) s =
      (.done (.boolean yes), s.visited (m + 1)) := by
  let u : Machine := s.withHeld ([.object b, v] ++ s.held)
  have hserve : dispatch (n + m + 1) (.hasInstance b v) u = (.done yes, u.visited (m + 1)) := by
    have hnested := (hb.hasInstance_wraps n v).eq_nested (s := u) rfl hroom
    exact hnested.trans (Run.nested_of_same (htest _ rfl))
  have htested : (dispatch (n + m + 1)).hasInstance b v s = (.done yes, s.visited (m + 1)) :=
    Run.holding_of_eq hserve
  have hknown : (v.isUnknown || (Value.object b).isUnknown) = false := by
    cases v with
    | unknown => exact absurd rfl hv
    | _ => rfl
  unfold instanceOf
  rw [hknown]
  exact Run.bind_of_done _ htested

end Invoker

/-! ## Asked by the method -/

theorem Builtin.isPrototypeOf_of_known {inv : Invoker} {s : Machine} {p : Address}
    {v : Value} (hv : v ≠ .unknown) :
    isPrototypeOf.run inv (.object p) [v] s = (.done (.boolean (v.isBelow s.heap p)), s) := by
  have hgate : Value.unknown ∉ [Value.object p, v] := by simp [hv.symm]
  refine (congrFun (Run.gated_of_known hgate _) s).trans ?_
  cases v <;> rfl

/-- Of the call of a native function that leaves the machine alone, the frame is left. -/
theorem Invoker.call_of_same {k : Nat} {s : Machine} {g : Address} {q : Native Step}
    {b : Builtin} {self : Value} {args : List Value} {r : Outcome Value}
    (hg : (s.heap.get g).callable = some (.native q)) (hq : q.behaviour = .builtin b)
    (ha : s.admits = true)
    (hrun : ∀ t : Machine, t.heap = s.heap → b.run (dispatch k) self args t = (r, t)) :
    (dispatch (k + 1)).call g self args s = (r, s.visited 1) := by
  -- What the caller holds is no part of the heap.
  let u : Machine := s.withHeld ([.object g, self] ++ s.held)
  have hbody : (dispatch k).callBody self args (.native q) u.entered = (r, u.entered) := by
    simp only [callBody, hq]
    exact hrun _ rfl
  have hserve : dispatch (k + 1) (.call g self args) u = (r, u.visited 1) :=
    ((dispatch k).serve_of_callable (.call g self args) (s := u) hg).trans
      (Run.framed_of_same ha hbody)
  exact Run.holding_of_eq hserve

namespace Machine

/-- The operator and the method agree. Where a look-up of `prototype` from the function
finds a value that is an object, both say whether that object is above the other operand,
which is never so for the object itself nor for what is no object. The function may be
behind bound functions, as long as there is room for their frames. Nothing changes but the
trace, which has these frames. For an operand that is no object the operator says no,
whatever the function has as `prototype`. -/
theorem instance_tests_agree {l : Limits} {s : Machine} (hs : Reachable l s) {f b : Address}
    {m : Nat} (hb : s.heap.TestsThrough f m b) (n : Nat)
    (hroom : ∀ L, s.stack.limits.maxDepth = some L → s.stack.depth + (m + 1) ≤ L) :
    (∀ c d p v, s.heap.Finds .prototype f c (.data d) → d.value = .object p → v ≠ .unknown →
      ∃ yes,
        (dispatch (n + m + 1)).instanceOf v (.object b) s =
          (.done (.boolean yes), s.visited (m + 1)) ∧
        (∀ inv, Builtin.isPrototypeOf.run inv (.object p) [v] s = (.done (.boolean yes), s)) ∧
        (∀ k g q, (s.heap.get g).callable = some (.native q) →
          q.behaviour = .builtin .isPrototypeOf →
          (dispatch (k + 1)).call g (.object p) [v] s = (.done (.boolean yes), s.visited 1)) ∧
        (yes = true ↔ ∃ a, v = .object a ∧ s.heap.Above p a) ∧
        (v = .object p → yes = false)) ∧
    (∀ v, v.isObject = false → v ≠ .unknown →
      (dispatch (n + m + 1)).instanceOf v (.object b) s =
        (.done (.boolean false), s.visited (m + 1))) ∧
    ∀ k, (s.visited k).untraced = s.untraced := by
  have hh := hs.sound.acyclic
  refine ⟨fun c d p v hf hd hv => ?_, fun v hv hknown => ?_, fun k => untraced_visited k s⟩
  · have hmethod : ∀ (inv : Invoker) (t : Machine),
        Builtin.isPrototypeOf.run inv (.object p) [v] t =
          (.done (.boolean (v.isBelow t.heap p)), t) :=
      fun _ _ => Builtin.isPrototypeOf_of_known hv
    refine ⟨v.isBelow s.heap p, ?_, fun inv => hmethod inv s, fun k g q hg hq => ?_,
      hh.isBelow_iff, ?_⟩
    · refine Invoker.instanceOf_of_same hb hroom hv fun t ht => ?_
      rw [← ht] at hh hf ⊢
      exact Invoker.testInstance_of_finds hh hf hd
    · refine Invoker.call_of_same hg hq (admits_of_room hroom) fun t ht => ?_
      rw [hmethod, ht]
    · rintro rfl
      exact hh.not_isBelow_self p
  · exact Invoker.instanceOf_of_same hb hroom hknown fun t _ =>
      Invoker.testInstance_of_not_object hv

/-- Function.prototype is an instance of a bound function when Object.prototype is what is
looked for, and so says the method; null is none. -/
theorem functionPrototype_is_instance :
    let s := ((fresh .standard).withPrototype (.object .objectPrototype)).withBound
    ∃ b d, Reachable .standard s ∧ s.heap.TestsThrough .functionPrototype 1 b ∧
      (∀ L, s.stack.limits.maxDepth = some L → s.stack.depth + (1 + 1) ≤ L) ∧
      s.heap.Finds .prototype .functionPrototype .functionPrototype (.data d) ∧
      d.value = .object .objectPrototype ∧
      (dispatch 2).instanceOf (.object .functionPrototype) (.object b) s =
        (.done (.boolean true), s.visited 2) ∧
      (∀ inv, Builtin.isPrototypeOf.run inv (.object .objectPrototype)
        [.object .functionPrototype] s = (.done (.boolean true), s)) ∧
      (dispatch 2).instanceOf .null (.object b) s = (.done (.boolean false), s.visited 2) := by
  intro s
  obtain ⟨b, hs, hb, hroom⟩ := fresh_with_test (.object .objectPrototype)
  have hprototype : (s.heap.get .functionPrototype).own? .prototype =
      some (.data ⟨.object .objectPrototype, true, true, true⟩) := by decide +kernel
  have hlink : s.heap.Linked .functionPrototype .objectPrototype := by
    unfold Heap.Linked
    decide +kernel
  have hf := Heap.Finds.own hprototype
  obtain ⟨hagree, hnot, -⟩ := instance_tests_agree hs hb 0 hroom
  obtain ⟨yes, hoperator, hmethod, -, hyes, -⟩ :=
    hagree _ _ _ (.object .functionPrototype) hf rfl nofun
  obtain rfl : yes = true := hyes.mpr ⟨_, rfl, .single hlink⟩
  exact ⟨b, _, hs, hb, hroom, hf, rfl, hoperator, hmethod, hnot .null rfl nofun⟩

end Machine
end ScriptModel
