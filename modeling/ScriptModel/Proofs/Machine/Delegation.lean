import ScriptModel.Proofs.Machine.Depth
import ScriptModel.Proofs.Machine.Retention

/-!
# Chains of bound functions

A bound function may be bound again, and so on. A request for the last of `m` bound
functions opens `m` frames and then is a request for the function that the first was bound
from, with the receiver of the first and the fixed arguments of all. Receivers further out,
and the receiver given at the call site, are never looked at. When the limit admits fewer
than `m` frames, those are opened and the next is refused.

A call site holds what it gives to a function. Around the direct request it holds other
values than around the request for a bound function, but those are what the bound function
refers to, so they keep the same objects alive.
-/

namespace ScriptModel

/-- A chain of `m` bound functions that ends at `b`. The first was bound from `f` with the
receiver `t`; the list has the fixed arguments of all, those of the first in front. -/
inductive Heap.Chained (h : Heap) (f : Address) (t : Value) :
    Nat → Address → List Value → Prop where
  | first {b : Address} {a : List Value} :
    (h.get b).callable = some (.bound ⟨f, t, a⟩) → h.Chained f t 1 b a
  | next {m : Nat} {b c : Address} {t' : Value} {as a : List Value} :
    h.Chained f t m b as → (h.get c).callable = some (.bound ⟨b, t', a⟩) →
      h.Chained f t (m + 1) c (as ++ a)

/-- A chain ends at a bound function. -/
theorem Heap.Chained.callable {h : Heap} {f b : Address} {t : Value} {m : Nat}
    {as : List Value}
    (hb : h.Chained f t m b as) : ∃ g, (h.get b).callable = some (.bound g) := by
  cases hb with
  | first hc => exact ⟨_, hc⟩
  | next _ hc => exact ⟨_, hc⟩

/-- Who retains the last function of a chain retains the function that the chain leads to,
and the receiver that it gets. -/
theorem Heap.Chained.retained {h : Heap} {f b : Address} {t : Value} {m : Nat}
    {as : List Value}
    (hb : h.Chained f t m b as) {roots : List Address} (hr : h.Retained roots b) :
    ∀ a ∈ [Value.object f, t].filterMap Value.address?, h.Retained roots a := by
  induction hb with
  | @first b a hc =>
    intro r hmem
    refine .through hr ?_
    rw [Object.fixedReferences, hc]
    have hall : r ∈ (Value.object f :: t :: a).filterMap Value.address? := by
      rw [show Value.object f :: t :: a = [Value.object f, t] ++ a from rfl,
        List.filterMap_append]
      exact List.mem_append_left _ hmem
    exact hall
  | @next m b c t' as a _ hc ih =>
    refine ih (.through hr ?_)
    rw [Object.fixedReferences, hc]
    exact List.mem_cons_self

/-! ## Several frames at once -/

namespace Event

/-- What the trace tells of `m` frames that are opened one in another, from depth `d` on. -/
def openings (d : Nat) : Nat → List Event
  | 0 => []
  | m + 1 => openings (d + 1) m ++ [entered (d + 1)]

/-- What the trace tells of `m` frames that are closed one after another, from depth `d`
on. -/
def closings (d : Nat) : Nat → List Event
  | 0 => []
  | m + 1 => left (d - (m + 1)) :: closings d m

end Event

namespace Machine

/-- The machine with `m` more frames open. -/
def nest (m : Nat) (s : Machine) : Machine :=
  { s with
    stack := { s.stack with depth := s.stack.depth + m }
    trace := Event.openings s.stack.depth m ++ s.trace }

/-- The machine with `m` frames closed. -/
def unnest (m : Nat) (s : Machine) : Machine :=
  { s with
    stack := { s.stack with depth := s.stack.depth - m }
    trace := Event.closings s.stack.depth m ++ s.trace }

theorem nest_succ (m : Nat) (s : Machine) : nest (m + 1) s = nest m s.entered := by
  simp only [nest, entered, note, Event.openings, List.append_assoc, List.singleton_append,
    Nat.add_right_comm, ← Nat.add_assoc]

theorem unnest_succ (m : Nat) (s : Machine) : unnest (m + 1) s = (unnest m s).left := rfl

end Machine

namespace Run

open Machine

variable {α : Type}

/-- Runs a computation inside `m` frames, without asking whether the limit admits them. -/
def nested (m : Nat) (x : Run α) : Run α := fun s =>
  ((x (s.nest m)).1, (x (s.nest m)).2.unnest m)

theorem holding_nested (vs : List Value) (m : Nat) (x : Run α) :
    holding vs (nested m x) = nested m (holding vs x) := rfl

/-- What a frame that is refused comes to. -/
def refusal : Run α := fun s => (.raised .depthExceeded, s.refused)

/-- The computations do the same on machines with the heap `h`. -/
def AgreeOn (h : Heap) (x y : Run α) : Prop := ∀ s, s.heap = h → x s = y s

/-- On machines with the heap `h`, the second computation is the first inside `m` frames,
each of which has to be admitted. -/
inductive Wraps (h : Heap) (x : Run α) : Nat → Run α → Prop where
  | none : Wraps h x 0 x
  | frame {m : Nat} {y body z : Run α} :
    Wraps h x m y → AgreeOn h body y → AgreeOn h z (framed body) → Wraps h x (m + 1) z

variable {h : Heap} {x y : Run α} {m : Nat} {s : Machine}

theorem Wraps.eq_nested (hw : Wraps h x m y) (hs : s.heap = h)
    (hroom : ∀ L, s.stack.limits.maxDepth = some L → s.stack.depth + m ≤ L) :
    y s = nested m x s := by
  induction hw generalizing s with
  | none => rfl
  | @frame m y body z _ hbody hz ih =>
    have ha : s.admits = true := admits_of_room hroom
    have hy : y s.entered = nested m x s.entered := by
      refine ih hs fun L hL => ?_
      have hle := hroom L hL
      show s.stack.depth + 1 + m ≤ L
      omega
    rw [hz s hs, framed_of_admits body ha, hbody s.entered hs, hy]
    simp only [nested, nest_succ, unnest_succ]

theorem Wraps.eq_refusal (hw : Wraps h x m y) (hs : s.heap = h) {L : Nat}
    (hL : s.stack.limits.maxDepth = some L) (hd : s.stack.depth ≤ L)
    (hm : L < s.stack.depth + m) : y s = nested (L - s.stack.depth) refusal s := by
  induction hw generalizing s with
  | none => omega
  | @frame m y body z _ hbody hz ih =>
    have hadmits : s.admits = decide (s.stack.depth < L) := by
      simp only [admits, Limits.admits, hL]
    rw [hz s hs]
    rcases Nat.lt_or_eq_of_le hd with hlt | heq
    · have hy : y s.entered = nested (L - (s.stack.depth + 1)) refusal s.entered :=
        ih hs hL hlt (by show L < s.stack.depth + 1 + m; omega)
      have hk : L - s.stack.depth = L - (s.stack.depth + 1) + 1 := by omega
      rw [framed_of_admits body (hadmits.trans (decide_eq_true hlt)), hbody s.entered hs,
        hy, hk]
      simp only [nested, nest_succ, unnest_succ]
    · rw [framed_of_not_admits body (hadmits.trans (decide_eq_false (by omega))), ← heq,
        Nat.sub_self]
      rfl

end Run

/-! ## Requests for bound functions -/

namespace Invoker

variable (inv : Invoker) (g : Bound)

/-- A construction by a bound function looks no further than at its target. -/
theorem constructBody_bound (e : List Value) {h : Heap} {able : Bool}
    (hable : (h.get g.target).callable.any Callable.isConstructor = able) :
    Run.AgreeOn h (inv.constructBody e (.bound g))
      (if able then inv (.construct g.target (g.arguments ++ e))
        else Run.raise .boundNotConstructor) := by
  rintro s rfl
  rw [← hable]
  rfl

/-- Nor does an instance test. -/
theorem testBody_bound (b : Address) (v : Value) {h : Heap} {able : Bool}
    (hable : (h.get g.target).callable.any Callable.testsInstances = able) :
    Run.AgreeOn h (inv.testBody b v (.bound g))
      (if able then inv (.hasInstance g.target v) else Run.raise .boundNoInstanceTest) := by
  rintro s rfl
  rw [← hable]
  rfl

/-- Serving, on machines with a heap in which the function is known. -/
theorem serve_agreeOn (r : Request) {h : Heap} {c : Callable Step}
    (hc : (h.get r.function).callable = some c) :
    Run.AgreeOn h (inv.serve r) (Run.framed (inv.body c r)) := by
  rintro s rfl
  exact inv.serve_of_callable r hc

end Invoker

namespace Heap.Chained

open Run

variable {h : Heap} {f b : Address} {t : Value} {m : Nat} {as : List Value}
  (hb : h.Chained f t m b as) (n : Nat)
include hb

theorem call_wraps (self : Value) (e : List Value) :
    Wraps h (dispatch n (.call f t (as ++ e))) m (dispatch (n + m) (.call b self e)) := by
  induction hb generalizing self e with
  | @first b a hc =>
    exact .frame .none (fun _ _ => rfl) ((dispatch n).serve_agreeOn (.call b self e) hc)
  | @next m b c t' as a _ hc ih =>
    rw [List.append_assoc]
    exact .frame (ih t' (a ++ e)) (fun _ _ => rfl)
      ((dispatch (n + m)).serve_agreeOn (.call c self e) hc)

theorem construct_wraps (e : List Value) :
    Wraps h
      (if (h.get f).callable.any Callable.isConstructor then dispatch n (.construct f (as ++ e))
        else Run.raise .boundNotConstructor)
      m (dispatch (n + m) (.construct b e)) := by
  induction hb generalizing e with
  | @first b a hc =>
    exact .frame .none ((dispatch n).constructBody_bound _ e rfl)
      ((dispatch n).serve_agreeOn (.construct b e) hc)
  | @next m b c t' as a hb hc ih =>
    -- The target is bound itself, and so passes for a constructor whatever it was bound
    -- from.
    obtain ⟨g, hg⟩ := hb.callable
    have hable : (h.get b).callable.any Callable.isConstructor = true := by
      rw [hg]
      rfl
    rw [List.append_assoc]
    exact .frame (ih (a ++ e)) ((dispatch (n + m)).constructBody_bound ⟨b, t', a⟩ e hable)
      ((dispatch (n + m)).serve_agreeOn (.construct c e) hc)

theorem hasInstance_wraps (v : Value) :
    Wraps h
      (if (h.get f).callable.any Callable.testsInstances then dispatch n (.hasInstance f v)
        else Run.raise .boundNoInstanceTest)
      m (dispatch (n + m) (.hasInstance b v)) := by
  induction hb with
  | @first b a hc =>
    exact .frame .none ((dispatch n).testBody_bound _ b v rfl)
      ((dispatch n).serve_agreeOn (.hasInstance b v) hc)
  | @next m b c t' as a hb hc ih =>
    obtain ⟨g, hg⟩ := hb.callable
    have hable : (h.get b).callable.any Callable.testsInstances = true := by
      rw [hg]
      rfl
    exact .frame ih ((dispatch (n + m)).testBody_bound ⟨b, t', a⟩ c v hable)
      ((dispatch (n + m)).serve_agreeOn (.hasInstance c v) hc)

/-- A chain that is longer than the limit allows ends with a refusal, whatever is asked of
it. -/
theorem request_refused (r : Request) (hr : r.function = b) {s : Machine} (hs : s.heap = h)
    {L : Nat} (hL : s.stack.limits.maxDepth = some L) (hd : s.stack.depth ≤ L)
    (hm : L < s.stack.depth + m) :
    dispatch (n + m) r s = nested (L - s.stack.depth) refusal s := by
  subst hr
  cases r with
  | call b self e => exact (hb.call_wraps n self e).eq_refusal hs hL hd hm
  | construct b e => exact (hb.construct_wraps n e).eq_refusal hs hL hd hm
  | hasInstance b v => exact (hb.hasInstance_wraps n v).eq_refusal hs hL hd hm

end Heap.Chained

/-! ## Call sites -/

namespace Run

variable {α : Type} {s : Machine} {f b : Address} {t : Value} {m : Nat} {as vs ws : List Value}

/-- A call site that has the bound function in hand may hold what the function refers to
instead of what it gives to the function. -/
theorem holding_nested_congr {x : Run α} (hx : Heedless α x x)
    (hb : s.heap.Chained f t m b as) (hmem : Value.object b ∈ s.held)
    (hvs : ∀ v ∈ vs, v ∈ s.held) (hws : ∀ w ∈ ws, w ∈ s.held ∨ w ∈ [Value.object f, t]) :
    holding vs (nested m x) s = nested m (holding ws x) s := by
  have hroot : ∀ us : List Value, Value.object b ∈ us →
      s.heap.Retained (us.filterMap Value.address?) b :=
    fun us hu => .root (List.mem_filterMap.mpr ⟨.object b, hu, rfl⟩)
  -- What is given to the bound function is in hand anyway, and what it gives on hangs on
  -- it.
  have hsame : s.heap.SameHold (vs ++ s.held) (ws ++ s.held) := by
    constructor
    · intro a ha
      obtain ⟨v, hv, hva⟩ := List.mem_filterMap.mp ha
      have hheld : v ∈ s.held := (List.mem_append.mp hv).elim (hvs v) id
      exact .root (List.mem_filterMap.mpr ⟨v, List.mem_append_right _ hheld, hva⟩)
    · intro a ha
      obtain ⟨w, hw, hwa⟩ := List.mem_filterMap.mp ha
      rcases (List.mem_append.mp hw).elim (hws w) .inl with hheld | hchain
      · exact .root (List.mem_filterMap.mpr ⟨w, List.mem_append_right _ hheld, hwa⟩)
      · exact hb.retained (hroot _ (List.mem_append_right _ hmem)) a
          (List.mem_filterMap.mpr ⟨w, hchain, hwa⟩)
  have hcongr : holding vs x (s.nest m) = holding ws x (s.nest m) := holding_congr hx hsame
  rw [holding_nested]
  unfold nested
  rw [hcongr]

end Run

/-- A request for the last of `m` bound functions is the direct request, `m` frames deeper,
when the limit has room for them, and a refusal at the limit when it has not. The receiver
given and all receivers bound but the first do nothing. Whether the direct request can be
made at all is asked of the function at the end of the chain, in the innermost frame. The
same goes for a call site that has in hand what it gives to the bound function, compared
with one that makes the direct request in its place. -/
theorem Machine.bound_chain_delegates {s : Machine} {f b : Address} {t : Value} {m : Nat}
    {as : List Value} (hb : s.heap.Chained f t m b as) (n : Nat) :
    ((∀ L, s.stack.limits.maxDepth = some L → s.stack.depth + m ≤ L) →
      ((∀ self e, dispatch (n + m) (.call b self e) s =
          Run.nested m (dispatch n (.call f t (as ++ e))) s) ∧
        (∀ e, dispatch (n + m) (.construct b e) s =
          Run.nested m
            (if (s.heap.get f).callable.any Callable.isConstructor then
              dispatch n (.construct f (as ++ e))
            else Run.raise .boundNotConstructor) s) ∧
        ∀ v, dispatch (n + m) (.hasInstance b v) s =
          Run.nested m
            (if (s.heap.get f).callable.any Callable.testsInstances then
              dispatch n (.hasInstance f v)
            else Run.raise .boundNoInstanceTest) s) ∧
      (Value.object b ∈ s.held →
        (∀ self e, self ∈ s.held → (dispatch (n + m)).call b self e s =
          Run.nested m ((dispatch n).call f t (as ++ e)) s) ∧
        (∀ e, (dispatch (n + m)).construct b e s =
          Run.nested m
            (if (s.heap.get f).callable.any Callable.isConstructor then
              (dispatch n).construct f (as ++ e)
            else Run.raise .boundNotConstructor) s) ∧
        ∀ v, v ∈ s.held → (dispatch (n + m)).hasInstance b v s =
          Run.nested m
            (if (s.heap.get f).callable.any Callable.testsInstances then
              (dispatch n).hasInstance f v
            else Run.raise .boundNoInstanceTest) s)) ∧
    (∀ L, s.stack.limits.maxDepth = some L → s.stack.depth ≤ L → L < s.stack.depth + m →
      ∀ r : Request, r.function = b →
        dispatch (n + m) r s = Run.nested (L - s.stack.depth) Run.refusal s) ∧
    ∀ r : Request, (dispatch (n + m) r s).2.stack = s.stack := by
  refine ⟨fun hroom => ⟨⟨fun self e => ?_, fun e => ?_, fun v => ?_⟩, fun hmem => ?_⟩,
    fun L hL hd hm r hr => hb.request_refused n r hr rfl hL hd hm,
    fun r => (Run.dispatch_logged (n + m) r s).1⟩
  · exact (hb.call_wraps n self e).eq_nested rfl hroom
  · exact (hb.construct_wraps n e).eq_nested rfl hroom
  · exact (hb.hasInstance_wraps n v).eq_nested rfl hroom
  -- What the call site holds is no part of the heap and the stack, so the requests are as
  -- above.
  have hnested : ∀ {α : Type} {x y : Run α} (vs : List Value), Run.Wraps s.heap x m y →
      Run.holding vs y s = Run.holding vs (Run.nested m x) s := by
    intro α x y vs hw
    have hxy := hw.eq_nested (s := s.withHeld (vs ++ s.held)) rfl hroom
    unfold Run.holding
    exact congrArg (fun out => (out.1, out.2.withHeld s.held)) hxy
  refine ⟨fun self e hself => ?_, fun e => ?_, fun v hv => ?_⟩
  · exact (hnested _ (hb.call_wraps n self e)).trans
      (Run.holding_nested_congr (Run.dispatch_heedless n _) hb hmem
        (by simp [hmem, hself]) (by simp))
  · refine (hnested _ (hb.construct_wraps n e)).trans ?_
    split
    · exact Run.holding_nested_congr (Run.dispatch_heedless n _) hb hmem
        (by simp [hmem]) (by simp)
    · rfl
  · refine (hnested _ (hb.hasInstance_wraps n v)).trans ?_
    split
    · exact Run.holding_nested_congr (Run.dispatch_heedless n _) hb hmem
        (by simp [hmem, hv]) (by simp [hv])
    · rfl

/-- Function.prototype, bound twice, and called where it is in hand. -/
theorem Machine.functionPrototype_bound_twice :
    ∃ s : Machine, s.heap.Chained .functionPrototype .null 2 ⟨4⟩ ([.undefined] ++ [.null]) ∧
      (∀ L, s.stack.limits.maxDepth = some L → s.stack.depth + 2 ≤ L) ∧
      Value.object ⟨4⟩ ∈ s.held ∧
      (∀ n self e, dispatch (n + 2) (.call ⟨4⟩ self e) s =
        Run.nested 2
          (dispatch n (.call .functionPrototype .null ([.undefined] ++ [.null] ++ e))) s) ∧
      ∀ n e, (dispatch (n + 2)).call ⟨4⟩ (.object ⟨4⟩) e s =
        Run.nested 2
          ((dispatch n).call .functionPrototype .null ([.undefined] ++ [.null] ++ e)) s := by
  let first : Object := .function (.bound ⟨.functionPrototype, .null, [.undefined]⟩) none
  let second : Object := .function (.bound ⟨⟨3⟩, .undefined, [.null]⟩) none
  let s : Machine :=
    ((bare .standard).withHeap ((bareHeap.alloc first).alloc second)).withHeld [.object ⟨4⟩]
  have hfirst : s.heap.Chained .functionPrototype .null 1 ⟨3⟩ [.undefined] := .first rfl
  have hsecond : (s.heap.get ⟨4⟩).callable = some (.bound ⟨⟨3⟩, .undefined, [.null]⟩) := rfl
  have hb : s.heap.Chained .functionPrototype .null 2 ⟨4⟩ ([.undefined] ++ [.null]) :=
    .next hfirst hsecond
  have hroom : ∀ L, s.stack.limits.maxDepth = some L → s.stack.depth + 2 ≤ L := by
    intro L hL
    cases hL
    decide
  have hmem : Value.object ⟨4⟩ ∈ s.held := List.mem_singleton_self _
  refine ⟨s, hb, hroom, hmem, fun n => ?_, fun n => ?_⟩
  · exact ((bound_chain_delegates hb n).1 hroom).1.1
  · exact fun e => (((bound_chain_delegates hb n).1 hroom).2 hmem).1 _ e hmem

end ScriptModel
