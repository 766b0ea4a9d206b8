import ScriptModel.Proofs.Machine.Lock
import ScriptModel.Proofs.Machine.Reachable

/-!
# What a bound function captures

`bind` fixes a target, a receiver and the first arguments for good. What makes an object
callable is never written again, and its class neither; the `length` of a bound function and
its two poisoned properties are locked from the start, with nothing under their locks that
could still change. So whatever runs afterwards, the bound function is what `bind` made of
it, and whoever reads or writes `caller` or `arguments` runs the function that raises.
-/

namespace ScriptModel

/-! ## Locks with nothing under them -/

/-- A locked property that is no writable data property stays exactly as it is. -/
theorem Property.Keeps.eq {p q : Property} (h : p.Keeps q) (hl : p.configurable = false)
    (hw : p.isWritable = false) : q = p := by
  cases p with
  | data d =>
    cases q with
    | accessor b => exact h.elim
    | data e =>
      obtain ⟨hc, he, hv⟩ := h
      obtain ⟨hew, hev⟩ := hv hw
      have hdc : d.configurable = false := hl
      have hdw : d.writable = false := hw
      cases d
      cases e
      simp_all
  | accessor a =>
    cases q with
    | data e => exact h.elim
    | accessor b =>
      obtain ⟨hc, he, hg, hs⟩ := h
      have hac : a.configurable = false := hl
      cases a
      cases b
      simp_all

theorem Machine.Path.own?_of_fixed {s t : Machine} (h : Path s t) {o : Address} {k : Key}
    {p : Property} (hp : (s.heap.get o).own? k = some p) (hl : p.configurable = false)
    (hw : p.isWritable = false) : (t.heap.get o).own? k = some p := by
  obtain ⟨q, hq, hpq⟩ := h.keepsLocks o k p hp hl
  rw [hq, hpq.eq hl hw]

/-! ## Bound functions -/

/-- An accessor that raises whenever it is read or written. -/
def Property.poison : Property :=
  .accessor ⟨some .typeThrower, some .typeThrower, false, false⟩

/-- The object is the bound function for `g`, its `length` is locked, and its `caller` and
`arguments` are poisoned. -/
structure Heap.Binds (h : Heap) (b : Address) (g : Bound) (length : Value) : Prop where
  cls : (h.get b).cls = .function
  callable : (h.get b).callable = some (.bound g)
  length : (h.get b).own? .length = some (Object.dataProperty length false false false)
  caller : (h.get b).own? .caller = some .poison
  arguments : (h.get b).own? .arguments = some .poison

theorem Heap.binds_alloc (h : Heap) (g : Bound) (length : Value) :
    (h.alloc (Builtin.boundObject g length)).Binds h.next g length := by
  constructor <;> rw [get_alloc_next] <;> rfl

/-- No run changes what was bound. -/
theorem Heap.Binds.later {s t : Machine} {b : Address} {g : Bound} {length : Value}
    (hb : s.heap.Binds b g length) (h : Machine.Path s t) : t.heap.Binds b g length where
  cls := (h.keepsObjects.cls b (contains_of_callable hb.callable)).trans hb.cls
  callable := h.keepsObjects.callable_eq hb.callable
  length := h.own?_of_fixed hb.length rfl rfl
  caller := h.own?_of_fixed hb.caller rfl rfl
  arguments := h.own?_of_fixed hb.arguments rfl rfl

/-- Only a function is called, bound or applied. -/
theorem Builtin.callee_eq_done {f g : Address} {s t : Machine}
    (h : callee (.object f) s = (.done g, t)) : g = f := by
  obtain ⟨b, u, _, h⟩ := Run.bind_eq_done h
  cases b with
  | false => cases h
  | true =>
    cases h
    rfl

/-- An object that `bind` yields is a new bound function, with the receiver of `bind` as
target. -/
theorem Builtin.binds_of_bind {inv : Invoker} {f b : Address} {args : List Value}
    {s t : Machine}
    (hb : Builtin.bind.run inv (.object f) args s = (.done (.object b), t)) :
    ∃ length, t.heap.Binds b ⟨f, argument args 0, args.drop 1⟩ length := by
  change Run.gated (.object f) args (bindTo inv (.object f) args) s = _ at hb
  unfold Run.gated at hb
  split at hb
  · cases hb
  · obtain ⟨target, u, hcallee, hb⟩ := Run.bind_eq_done hb
    obtain ⟨length, v, _, hb⟩ := Run.bind_eq_done hb
    obtain ⟨c, w, halloc, hb⟩ := Run.bind_eq_done hb
    cases callee_eq_done hcallee
    cases halloc
    cases hb
    exact ⟨length, v.heap.binds_alloc _ length⟩

/-! ## Poisoned properties -/

namespace Machine

variable {l : Limits} {s : Machine}

/-- The function that always raises. -/
def thrower : Callable Step := .native ⟨"ThrowTypeError", 0, .builtin .throwTypeError, none⟩

/-- It is there from the start, and stays what it is. -/
theorem Reachable.callable_typeThrower (hs : Reachable l s) :
    (s.heap.get .typeThrower).callable = some thrower :=
  hs.keepsObjects.callable_eq rfl

/-- Frames are left exactly where the depth is below the limit. -/
theorem Reachable.admits_iff (hs : Reachable l s) :
    s.admits = true ↔ ∀ L, l.maxDepth = some L → s.stack.depth < L := by
  have hl := hs.sound.limits_eq
  unfold admits Limits.admits
  rw [hl]
  cases l.maxDepth with
  | none => simp
  | some L => simp

/-- What comes of reading or writing a poisoned property. -/
def poisonError (s : Machine) : Exception :=
  if s.admits then .restricted else .depthExceeded

theorem kind_poisonError (s : Machine) :
    s.poisonError.kind = if s.admits then .typeError else .rangeError := by
  unfold poisonError
  split <;> rfl

end Machine

namespace Invoker

open Machine

variable {s : Machine} (hthrower : (s.heap.get .typeThrower).callable = some thrower) (n : Nat)
include hthrower

theorem call_thrower (self : Value) (args : List Value) :
    ((dispatch (n + 1)).call .typeThrower self args s).1 = .raised s.poisonError := by
  -- What the call site holds makes no difference to the outcome.
  let u : Machine := { s with held := [.object .typeThrower, self] ++ s.held }
  have hserve : dispatch (n + 1) (.call .typeThrower self args) u =
      Run.framed ((dispatch n).callBody self args thrower) u :=
    (dispatch n).serve_of_callable (.call .typeThrower self args) (s := u) hthrower
  have hadmits : u.admits = s.admits := rfl
  refine (Run.outcome_holding _ (dispatch (n + 1) (.call .typeThrower self args)) s).trans ?_
  show (dispatch (n + 1) (.call .typeThrower self args) u).1 = _
  rw [hserve, poisonError]
  cases ha : s.admits with
  | true =>
    rw [Run.framed_of_admits _ (hadmits.trans ha)]
    rfl
  | false =>
    rw [Run.framed_of_not_admits _ (hadmits.trans ha)]
    rfl

theorem access_thrower (o holder : Address) (a : AccessorProperty) (args : List Value) :
    ((dispatch (n + 1)).access o holder a .typeThrower args s).1 = .raised s.poisonError := by
  rw [access, Run.outcome_holding]
  exact call_thrower (s := { s with held := _ ++ s.held }) hthrower n _ args

variable {b : Address} {k : Key} (hk : (s.heap.get b).own? k = some .poison)
include hk

theorem get_poisoned : ((dispatch (n + 1)).get b k s).1 = .raised s.poisonError := by
  have hfind : Run.onHeap (fun h => h.find? b k) s = (.done (some (b, .poison)), s) := by
    rw [Run.onHeap, Run.read_apply, Heap.find?_of_own hk]
  unfold get
  rw [Run.bind_of_done _ hfind]
  exact (Run.outcome_swept _ _ s).trans (access_thrower hthrower n b b _ [])

/-- The setter runs before anything is asked of the flags. -/
theorem put_poisoned (v : Value) (throws overrides : Bool) :
    ((dispatch (n + 1)).put b k v throws overrides s).1 = .raised s.poisonError := by
  rw [put_of_find? _ (Heap.find?_of_own hk)]
  refine (Run.outcome_swept _ _ s).trans ?_
  obtain ⟨t, ht⟩ : ∃ t, (dispatch (n + 1)).access b b
      ⟨some .typeThrower, some .typeThrower, false, false⟩ .typeThrower [v] s =
        (.raised s.poisonError, t) :=
    ⟨_, Prod.ext (access_thrower hthrower n b b _ [v]) rfl⟩
  exact congrArg Prod.fst (Run.bind_of_raised _ ht)

end Invoker

namespace Machine

/-- What `bind` captures and poisons is permanent. After everything that can happen to a
machine on which `bind` made a bound function, it is a function of its class still, with the
target, the receiver and the arguments it was made with, and with the same locked `length`;
and to read or to write `caller` or `arguments` raises, whatever is written and with
whatever flags: a type error where a frame is left for the function that raises it, and
where none is the error of the limit. -/
theorem bound_function_stays {l : Limits} {s t : Machine} (hs : Reachable l s) {n : Nat}
    {f b : Address} {args : List Value}
    (hb : Builtin.bind.run (dispatch n) (.object f) args s = (.done (.object b), t)) :
    ∃ length, ∀ u, Path t u →
      u.heap.Binds b ⟨f, Builtin.argument args 0, args.drop 1⟩ length ∧
      (∀ k ∈ [Key.caller, Key.arguments], ∀ m : Nat,
        ((dispatch (m + 1)).get b k u).1 = .raised u.poisonError ∧
        ∀ (v : Value) (throws overrides : Bool),
          ((dispatch (m + 1)).put b k v throws overrides u).1 = .raised u.poisonError) ∧
      u.poisonError.kind = (if u.admits then .typeError else .rangeError) ∧
      (u.admits = true ↔ ∀ L, l.maxDepth = some L → u.stack.depth < L) := by
  obtain ⟨length, hbinds⟩ := Builtin.binds_of_bind hb
  have ht : Reachable l t := by
    have hpath := Run.congruence_path.builtin (Run.dispatch_path n) .bind (.object f) args s
    rw [hb] at hpath
    exact hs.path hpath
  refine ⟨length, fun u hu => ?_⟩
  have hru : Reachable l u := ht.path hu
  have hthrower := hru.callable_typeThrower
  have hbu := hbinds.later hu
  have hpoison : ∀ k ∈ [Key.caller, Key.arguments],
    (u.heap.get b).own? k = some .poison := by
    intro k hk
    simp only [List.mem_cons, List.not_mem_nil, or_false] at hk
    rcases hk with rfl | rfl
    · exact hbu.caller
    · exact hbu.arguments
  refine ⟨hbu, fun k hk m => ⟨?_, fun v throws overrides => ?_⟩, u.kind_poisonError,
    hru.admits_iff⟩
  · exact Invoker.get_poisoned hthrower m (hpoison k hk)
  · exact Invoker.put_poisoned hthrower m (hpoison k hk) v throws overrides

/-- Tries to have a bound function lose what it was made with. -/
def unbindingScript : List Step :=
  let open_ : Draft :=
    ⟨.data, some (.constant .null), some true, none, none, some true, some true⟩
  [.access (.define (.named "bound") .caller open_ false true),
    .access (.delete (.named "bound") .arguments false),
    .access (.put (.named "bound") .length (.constant .null) false true),
    .access (.setPrototype (.named "bound") none),
    .invoke (.register .all)]

/-- Function.prototype, bound on a fresh machine, comes through that, and raises as
before. -/
theorem functionPrototype_stays_bound :
    ∃ b t, Reachable .standard (fresh .standard) ∧
      Builtin.bind.run (dispatch 1) (.object .functionPrototype) [.null, .boolean true]
        (fresh .standard) = (.done (.object b), t) ∧
      ∃ length,
        let u := (Script.run 1 (t.keep "bound" (.object b)) unbindingScript).2
        u.heap.Binds b ⟨.functionPrototype, .null, [.boolean true]⟩ length ∧
        ((dispatch 1).get b .caller u).1 = .raised .restricted ∧
        ((dispatch 1).put b .arguments .null false true u).1 = .raised .restricted := by
  have hmade : (Builtin.bind.run (dispatch 1) (.object .functionPrototype)
      [.null, .boolean true] (fresh .standard)).1 =
        .done (.object (fresh .standard).heap.next) := by decide +kernel
  obtain ⟨b, t, hb⟩ : ∃ b t, Builtin.bind.run (dispatch 1) (.object .functionPrototype)
      [.null, .boolean true] (fresh .standard) = (.done (.object b), t) :=
    ⟨_, _, Prod.ext hmade rfl⟩
  obtain ⟨length, hstays⟩ := bound_function_stays .fresh hb
  refine ⟨b, t, .fresh, hb, length, ?_⟩
  intro u
  have hkept : Path t (t.keep "bound" (.object b)) := (Act.aside _ _).path
  obtain ⟨hbinds, hraises, _, hadmits⟩ := hstays u (hkept.trans (Script.run_path 1 _ _))
  -- Nothing is running any more, so that a frame is left.
  have hbound : t.stack = (fresh .standard).stack := by
    have hlogged := Run.congruence_logged.builtin (Run.dispatch_logged 1) .bind
      (.object .functionPrototype) [.null, .boolean true] (fresh .standard)
    rw [hb] at hlogged
    exact hlogged.1
  have hstack : u.stack = t.stack := (Script.run_logged 1 (t.keep "bound" (.object b)) _).1
  have hdepth : u.stack.depth = 0 := by rw [hstack, hbound, stack_fresh]; rfl
  have hframe : u.admits = true := by
    rw [hadmits, hdepth]
    intro L hL
    cases hL
    decide
  have herror : u.poisonError = .restricted := by rw [poisonError, if_pos hframe]
  refine ⟨hbinds, ?_, ?_⟩
  · rw [(hraises .caller (by simp) 0).1, herror]
  · rw [(hraises .arguments (by simp) 0).2, herror]

end Machine
end ScriptModel
