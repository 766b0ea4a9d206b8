import ScriptModel.Proofs.Machine.Conversion
import ScriptModel.Proofs.Machine.Spreading

/-!
# What `apply` does with a list

Any object can stand for a list of arguments, whatever its `length` and its elements are and
whatever runs when they are read. `AppliesTo` says rule by rule what happens: the length is
read and converted once, then the elements are read in ascending order, as many as the
length said, and then the function is called. Whatever fails on the way is the end of it.
-/

namespace ScriptModel

theorem Run.checkArguments_of_lt {s : Machine} {count : Nat}
    (h : s.stack.limits.maxArguments < count) :
    checkArguments count s = (.raised .tooManyArguments, s.note (.argumentsRefused count)) := by
  rw [checkArguments, CallStack.checkArguments, if_pos h]

/-- The machine that `t` becomes when what was held since `s` is let go, apart from what
goes on being used. -/
def Machine.letGo (s : Machine) (hand : List Value) (t : Machine) : Machine :=
  (t.withHeld s.held).sweep hand

/-! ## The rules -/

namespace Invoker

variable (inv : Invoker) (list : Address) (s : Machine)

/-- What the length of the list is found to be, and on which machine: it is read once, and
what is read is converted once, and held from then on. -/
inductive Counts : Outcome Value → Machine → Prop where
  | unread {r : Outcome Value} {t : Machine} :
    inv.get list .length s = (r, t) → r.Fails → Counts r t
  | read {length : Value} {r : Outcome Value} {t u : Machine} :
    inv.get list .length s = (.done length, t) →
      inv.toNumber length (t.withHeld (length :: t.held)) = (r, u) → Counts r u

/-- The first elements of the list, and the machine on which they were read. They are read
one after another, each once, and held from then on. -/
inductive Reads : List Value → Machine → Prop where
  | start : Reads [] s
  | next {vs : List Value} {v : Value} {t u : Machine} : Reads vs t →
    inv.get list (.index (UInt32.ofNat vs.length)) t = (.done v, u) →
      Reads (vs ++ [v]) (u.withHeld (v :: u.held))

/-- What comes of applying a function to the list. The list and the receiver are held until
all elements are read; then the elements are the arguments of a call. An undetermined length
leaves the result undetermined, and one above the limit is refused, before any element is
read. -/
inductive AppliesTo (limit : Nat) (f : Address) (self : Value) :
    Outcome Value → Machine → Prop where
  | uncounted {r : Outcome Value} {t : Machine} :
    inv.Counts list (s.withHeld ([self, .object list] ++ s.held)) r t → r.Fails →
      AppliesTo limit f self r (s.letGo [] t)
  | undetermined {t : Machine} :
    inv.Counts list (s.withHeld ([self, .object list] ++ s.held)) (.done .unknown) t →
      AppliesTo limit f self (.done .unknown) (s.letGo [self] t)
  | tooMany {n : Number} {t : Machine} :
    inv.Counts list (s.withHeld ([self, .object list] ++ s.held)) (.done (.number n)) t →
      limit < n.toWord.toNat →
        AppliesTo limit f self (.raised .tooManyArguments)
          (s.letGo [] (t.note (.argumentsRefused n.toWord.toNat)))
  | unread {n : Number} {vs : List Value} {r : Outcome Value} {t u w : Machine} :
    inv.Counts list (s.withHeld ([self, .object list] ++ s.held)) (.done (.number n)) t →
      n.toWord.toNat ≤ limit → inv.Reads list t vs u → vs.length < n.toWord.toNat →
        inv.get list (.index (UInt32.ofNat vs.length)) u = (r, w) → r.Fails →
          AppliesTo limit f self r (s.letGo [] w)
  | called {n : Number} {vs : List Value} {r : Outcome Value} {t u w : Machine} :
    inv.Counts list (s.withHeld ([self, .object list] ++ s.held)) (.done (.number n)) t →
      n.toWord.toNat ≤ limit → inv.Reads list t vs u → vs.length = n.toWord.toNat →
        inv.call f self vs (s.letGo (self :: vs) u) = (r, w) →
          AppliesTo limit f self r w

end Invoker

/-! ## Reading the elements -/

namespace Invoker

variable {inv : Invoker} {list : Address} {s t : Machine} {vs : List Value}

/-- Whatever number of elements is asked for, they are read, or one of them cannot be. -/
theorem reads_or_fails (inv : Invoker) (list : Address) (s : Machine) (n : Nat) :
    (∃ vs t, inv.Reads list s vs t ∧ vs.length = n) ∨
      ∃ vs t r u, inv.Reads list s vs t ∧ vs.length < n ∧
        inv.get list (.index (UInt32.ofNat vs.length)) t = (r, u) ∧ r.Fails := by
  induction n with
  | zero => exact .inl ⟨[], s, .start, rfl⟩
  | succ n ih =>
    rcases ih with ⟨vs, t, hreads, hlen⟩ | ⟨vs, t, r, u, hreads, hlen, hget, hr⟩
    · rcases hget : inv.get list (.index (UInt32.ofNat vs.length)) t with ⟨r, u⟩
      rcases r.done_or_fails with ⟨v, rfl⟩ | hr
      · exact .inl ⟨vs ++ [v], _, .next hreads hget, by simp [hlen]⟩
      · exact .inr ⟨vs, t, r, u, hreads, by omega, hget, hr⟩
    · exact .inr ⟨vs, t, r, u, hreads, by omega, hget, hr⟩

end Invoker

namespace Builtin

variable {n : Nat} {list : Address} {s t u : Machine} {vs : List Value} {v : Value}
  {r : Outcome Value}

theorem elements_of_fails {inv : Invoker} {i k : Nat} (hr : r.Fails)
    (hget : inv.get list (.index (UInt32.ofNat i)) s = (r, t)) :
    elements inv list i (k + 1) s = (r.map fun v => [v], t) :=
  Run.bind_of_fails _ _ hget hr

/-- An element that is read comes in front of the others, and is held while they are
read. -/
theorem elements_of_done {inv : Invoker} {i k : Nat}
    (hget : inv.get list (.index (UInt32.ofNat i)) s = (.done v, t)) :
    elements inv list i (k + 1) s =
      ((elements inv list (i + 1) k (t.withHeld (v :: t.held))).1.map (v :: ·),
        (elements inv list (i + 1) k (t.withHeld (v :: t.held))).2.withHeld t.held) := by
  refine (Run.bind_of_done _ hget).trans ?_
  exact Run.map_apply (v :: ·) (Run.holding [v] (elements inv list (i + 1) k)) t

/-- Reading goes on where it is, and in the end gives back what was held at the start. -/
theorem elements_of_reads (h : (dispatch n).Reads list s vs t) (k : Nat) :
    elements (dispatch n) list 0 (vs.length + k) s =
      ((elements (dispatch n) list vs.length k t).1.map (vs ++ ·),
        (elements (dispatch n) list vs.length k t).2.withHeld s.held) := by
  induction h generalizing k with
  | start =>
    have hheld :=
      (Run.congruence_heedless.elements (Run.dispatch_heedless n) list 0 k).held s
    rw [List.length_nil, Nat.zero_add]
    rw [← hheld]
    exact Prod.ext (Outcome.map_id _).symm rfl
  | @next vs v t u _ hget ih =>
    have hlen : (vs ++ [v]).length + k = vs.length + (k + 1) := by
      rw [List.length_append, List.length_singleton, Nat.add_assoc, Nat.add_comm 1 k]
    rw [hlen, ih (k + 1), elements_of_done hget, Outcome.map_map, List.length_append,
      List.length_singleton]
    simp only [List.append_assoc, List.singleton_append]
    rfl

theorem elements_of_reads_all (h : (dispatch n).Reads list s vs t) :
    elements (dispatch n) list 0 vs.length s = (.done vs, t.withHeld s.held) := by
  refine (elements_of_reads h 0).trans ?_
  show (Outcome.done (vs ++ []), _) = _
  rw [List.append_nil]
  rfl

theorem elements_of_reads_fails {count : Nat} (h : (dispatch n).Reads list s vs t)
    (hlen : vs.length < count)
    (hget : (dispatch n).get list (.index (UInt32.ofNat vs.length)) t = (r, u))
    (hr : r.Fails) : elements (dispatch n) list 0 count s =
      (r.map fun v => vs ++ [v], u.withHeld s.held) := by
  obtain ⟨k, rfl⟩ : ∃ k, count = vs.length + (k + 1) := ⟨count - vs.length - 1, by omega⟩
  rw [elements_of_reads h (k + 1), elements_of_fails hr hget, Outcome.map_map]

/-! ## Counting them -/

variable {inv : Invoker}

/-- What is left when the number of elements is known. -/
def elementsUpTo (inv : Invoker) (list : Address) (count : Nat) :
    Run (Option (List Value)) := do
  Run.checkArguments count
  return some (← elements inv list 0 count)

/-- How the elements are read follows from what their number is found to be. What is held in
the end depends on what was held before. -/
theorem elements?_of_counts (h : inv.Counts list s r t) :
    (r.Fails → ∃ ws, elements? inv list s = (r.map fun _ => none, t.withHeld ws)) ∧
    (r = .done .unknown → ∃ ws, elements? inv list s = (.done none, t.withHeld ws)) ∧
    ∀ m, r = .done (.number m) → ∃ ws, elements? inv list s =
      ((elementsUpTo inv list m.toWord.toNat t).1,
        (elementsUpTo inv list m.toWord.toNat t).2.withHeld ws) := by
  cases h with
  | unread hget hr =>
    refine ⟨fun _ => ⟨t.held, Run.bind_of_fails _ _ hget hr⟩, fun hu => absurd hu (hr _),
      fun m hm => absurd hm (hr _)⟩
  | @read length _ u _ hget hnumber =>
    refine ⟨fun hr => ⟨u.held, ?_⟩, ?_, ?_⟩
    · refine (Run.bind_of_done _ hget).trans (Run.holding_of_eq ?_)
      exact Run.bind_of_fails _ _ hnumber hr
    · rintro rfl
      refine ⟨u.held, (Run.bind_of_done _ hget).trans (Run.holding_of_eq ?_)⟩
      exact Run.bind_of_done _ hnumber
    · rintro m rfl
      refine ⟨u.held, (Run.bind_of_done _ hget).trans (Run.holding_of_eq ?_)⟩
      exact Run.bind_of_done _ hnumber

theorem elementsUpTo_of_lt {count : Nat} (h : s.stack.limits.maxArguments < count) :
    elementsUpTo inv list count s =
      (.raised .tooManyArguments, s.note (.argumentsRefused count)) :=
  Run.bind_of_raised _ (Run.checkArguments_of_lt h)

theorem elementsUpTo_of_le {count : Nat} (h : count ≤ s.stack.limits.maxArguments) :
    elementsUpTo inv list count s =
      ((elements inv list 0 count s).1.map some, (elements inv list 0 count s).2) :=
  (Run.bind_of_done _ (Run.checkArguments_of_le h)).trans (Run.map_apply some _ s)

/-! ## The call -/

variable {f : Address} {self : Value}

/-- What the reading ends with, on a machine that holds the receiver and the list. -/
theorem applyList_of_fails {r : Outcome (Option (List Value))}
    (h : elements? inv list (s.withHeld ([self, .object list] ++ s.held)) = (r, t))
    (hr : r.Fails) (g : Option (List Value) → Value) :
    applyList inv [self, .object list] f list s = (r.map g, s.letGo [] t) :=
  Run.bind_of_fails _ g (Run.swept_of_fails _ (Run.holding_of_eq h) hr) hr

theorem applyList_of_none
    (h : elements? inv list (s.withHeld ([self, .object list] ++ s.held)) = (.done none, t)) :
    applyList inv [self, .object list] f list s = (.done .unknown, s.letGo [self] t) :=
  Run.bind_of_done _ (Run.swept_of_done (Run.holding_of_eq h))

theorem applyList_of_some
    (h : elements? inv list (s.withHeld ([self, .object list] ++ s.held)) =
      (.done (some vs), t)) :
    applyList inv [self, .object list] f list s = inv.call f self vs (s.letGo (self :: vs) t) :=
  (Run.bind_of_done _ (Run.swept_of_done (Run.holding_of_eq h))).trans (Run.holding_nil rfl)

end Builtin
namespace Invoker

open Machine

variable {l : Limits} {n : Nat} {list f : Address} {s t : Machine} {self : Value}
  {r : Outcome Value}

theorem Counts.path (h : (dispatch n).Counts list s r t) : Path s t := by
  have hread := Run.congruence_path.get (Run.dispatch_path n) list .length s
  cases h with
  | unread hget _ =>
    rw [hget] at hread
    exact hread
  | @read length _ u _ hget hnumber =>
    have hconvert := Run.congruence_path.toNumber (Run.dispatch_path n) length
      (u.withHeld (length :: u.held))
    rw [hget] at hread
    rw [hnumber] at hconvert
    exact hread.trans ((Act.hold _).path.trans hconvert)

/-- The limit is the same on every machine on which the number of elements is known. -/
theorem Counts.maxArguments_eq (hs : Reachable l s) {ws : List Value}
    (h : (dispatch n).Counts list (s.withHeld ws) r t) :
    t.stack.limits.maxArguments = l.maxArguments := by
  have hpath : Path s t := (Act.hold ws).path.trans h.path
  rw [(hs.path hpath).sound.limits_eq]

theorem exists_counts (inv : Invoker) (list : Address) (s : Machine) :
    ∃ r t, inv.Counts list s r t := by
  rcases hget : inv.get list .length s with ⟨r, t⟩
  rcases r.done_or_fails with ⟨length, rfl⟩ | hr
  · exact ⟨_, _, .read hget rfl⟩
  · exact ⟨r, t, .unread hget hr⟩

/-- The length is a number, or none is known. -/
theorem Counts.cases_done {inv : Invoker} {v : Value} (h : inv.Counts list s (.done v) t) :
    v = .unknown ∨ ∃ m, v = .number m := by
  cases h with
  | unread _ hr => exact absurd rfl (hr v)
  | read _ hnumber => exact toNumber_eq_done hnumber

/-- The rules say what is done. -/
theorem AppliesTo.applyList_eq (hs : Reachable l s)
    (h : (dispatch n).AppliesTo list s l.maxArguments f self r t) :
    Builtin.applyList (dispatch n) [self, .object list] f list s = (r, t) := by
  cases h with
  | uncounted hcount hr =>
    obtain ⟨ws, hread⟩ := (Builtin.elements?_of_counts hcount).1 hr
    refine (Builtin.applyList_of_fails hread (hr.map _) fun _ => .unknown).trans ?_
    rw [Outcome.map_map]
    exact congrArg (·, _) (hr.map_eq _)
  | undetermined hcount =>
    obtain ⟨ws, hread⟩ := (Builtin.elements?_of_counts hcount).2.1 rfl
    have hnone := Builtin.applyList_of_none (f := f) hread
    exact hnone
  | @tooMany m u hcount hlt =>
    obtain ⟨ws, hread⟩ := (Builtin.elements?_of_counts hcount).2.2 m rfl
    rw [Builtin.elementsUpTo_of_lt (hcount.maxArguments_eq hs ▸ hlt)] at hread
    exact Builtin.applyList_of_fails hread nofun fun _ => .unknown
  | @unread m vs _ u w x hcount hle hreads hlen hget hr =>
    obtain ⟨ws, hread⟩ := (Builtin.elements?_of_counts hcount).2.2 m rfl
    rw [Builtin.elementsUpTo_of_le (hcount.maxArguments_eq hs ▸ hle),
      Builtin.elements_of_reads_fails hreads hlen hget hr, Outcome.map_map] at hread
    refine (Builtin.applyList_of_fails hread (hr.map _) fun _ => .unknown).trans ?_
    rw [Outcome.map_map]
    exact congrArg (·, _) (hr.map_eq _)
  | @called m vs _ u w x hcount hle hreads hlen hcall =>
    obtain ⟨ws, hread⟩ := (Builtin.elements?_of_counts hcount).2.2 m rfl
    rw [Builtin.elementsUpTo_of_le (hcount.maxArguments_eq hs ▸ hle), ← hlen,
      Builtin.elements_of_reads_all hreads] at hread
    exact (Builtin.applyList_of_some hread).trans hcall

/-- One rule or another applies. -/
theorem exists_appliesTo (inv : Invoker) (list : Address) (s : Machine) (limit : Nat)
    (f : Address) (self : Value) : ∃ r t, inv.AppliesTo list s limit f self r t := by
  obtain ⟨r, t, hcount⟩ :=
    exists_counts inv list (s.withHeld ([self, .object list] ++ s.held))
  rcases r.done_or_fails with ⟨v, rfl⟩ | hr
  · rcases hcount.cases_done with rfl | ⟨m, rfl⟩
    · exact ⟨_, _, .undetermined hcount⟩
    rcases Nat.lt_or_ge limit m.toWord.toNat with hlt | hle
    · exact ⟨_, _, .tooMany hcount hlt⟩
    rcases reads_or_fails inv list t m.toWord.toNat with
      ⟨vs, u, hreads, hlen⟩ | ⟨vs, u, r, w, hreads, hlen, hget, hr⟩
    · exact ⟨_, _, .called hcount hle hreads hlen rfl⟩
    · exact ⟨_, _, .unread hcount hle hreads hlen hget hr⟩
  · exact ⟨_, _, .uncounted hcount hr⟩

end Invoker

namespace Machine

/-- To apply a function to an object is to read what the object lists and to call the
function with it. The rules say what comes of it, and on which machine it ends: the length
is read once, and converted once; an undetermined one leaves the result undetermined, and
one above the limit is a range error, and no element is read then. Otherwise the elements
are read one after another from the first, as many as the length said when it was read, and
what is read is passed on, undetermined values among it. Whatever cannot be read ends it,
and then the function is not called.

A length that is an object is converted by its methods, each of which is called once at
most. -/
theorem apply_follows_list {l : Limits} {s : Machine} (hs : Reachable l s) {f : Address}
    (hf : (s.heap.get f).isCallable = true) {self : Value} (hself : self ≠ .unknown)
    (list : Address) (n : Nat) :
    (∀ r t, Builtin.apply.run (dispatch n) (.object f) [self, .object list] s = (r, t) ↔
      (dispatch n).AppliesTo list s l.maxArguments f self r t) ∧
    Exception.tooManyArguments.kind = .rangeError ∧
    ∀ o s' r t, (dispatch n).toNumber (.object o) s' = (r, t) ↔
      ∃ p u, (dispatch n).Converts o [.valueOfMethod, .toStringMethod]
          (s'.withHeld (.object o :: s'.held)) p u ∧
        r = p.map Value.primitiveNumber ∧ t = u.withHeld s'.held := by
  refine ⟨fun r t => ?_, rfl, fun o s' r t => Invoker.toNumber_object_eq_iff⟩
  rw [Builtin.apply_of_object hf hself]
  refine ⟨fun h => ?_, fun h => h.applyList_eq hs⟩
  obtain ⟨r', t', happlies⟩ :=
    Invoker.exists_appliesTo (dispatch n) list s l.maxArguments f self
  cases h.symm.trans (happlies.applyList_eq hs)
  exact happlies

/-- A machine with a function, at `s.heap.next`, that counts its arguments. -/
def withCounter (s : Machine) : Machine :=
  s.withHeap (s.heap.alloc
    (.function (.scripted ⟨some ⟨[], .argumentCount⟩, .absent, false⟩) none))

/-- An undetermined element counts like any other. -/
theorem counter_counts_unknown :
    let f := (fresh .standard).heap.next
    let list := (fresh .standard).withCounter.heap.next
    let s := (fresh .standard).withCounter.withArray [.unknown] [.object f]
    Reachable .standard s ∧ (s.heap.get f).isCallable = true ∧ Value.null ≠ .unknown ∧
      ∃ t, Builtin.apply.run (dispatch 1) (.object f) [.null, .object list] s =
          (.done (.ofInt 1), t) ∧
        (dispatch 1).AppliesTo list s Limits.standard.maxArguments f .null
          (.done (.ofInt 1)) t := by
  intro f list s
  have hs : Reachable .standard s := by
    have hcounter : Reachable .standard (fresh .standard).withCounter :=
      Reachable.fresh.path (Act.alloc _).path
    exact (hcounter.path (Act.alloc (.array [.unknown])).path).path (Act.sweep _).path
  have hf : (s.heap.get f).isCallable = true := by decide +kernel
  have hdone : (Builtin.apply.run (dispatch 1) (.object f) [.null, .object list] s).1 =
      .done (.ofInt 1) := by decide +kernel
  have happly : Builtin.apply.run (dispatch 1) (.object f) [.null, .object list] s =
      (.done (.ofInt 1), _) := Prod.ext hdone rfl
  have hself : Value.null ≠ .unknown := nofun
  exact ⟨hs, hf, hself, _, happly,
    ((apply_follows_list hs hf hself list 1).1 _ _).mp happly⟩

end Machine
end ScriptModel
