import ScriptModel.Proofs.Heap.Release
import ScriptModel.Proofs.Machine.Gate
import ScriptModel.Proofs.Machine.Reachable
import ScriptModel.Proofs.Machine.Retention
import ScriptModel.Proofs.Object.Array

/-!
# Arguments given as a list

A function can be invoked with the elements of an array in place of the arguments one by
one. An array shows its length and its elements as data properties of its own, so nothing
runs when they are read, whatever stands further up the chain. And nothing is lost with the
array when it is let go before the call: no link leads to it, and its elements go on as
arguments.
-/

namespace ScriptModel

/-- A count that fits into a word survives the way through a number. -/
theorem Number.toNat_toWord_integer {n : Nat} (hn : n < 2 ^ 32) :
    (Number.integer (Int64.ofInt n)).toWord.toNat = n := by
  have hint : (Int64.ofInt n).toInt = n := Int64.toInt_ofInt_of_le (by omega) (by omega)
  have hmod : (n : Int) % Int.pow 2 32 = n := by
    refine Int.emod_eq_of_lt (Int.natCast_nonneg n) ?_
    show (n : Int) < 4294967296
    omega
  simp only [toWord, hint, hmod, Int.toNat_natCast, UInt32.toNat_ofNat',
    Nat.mod_eq_of_lt hn]

namespace Run

variable {α : Type} {x : Run α} {s : Machine}

/-- What leaves the machine alone leaves it alone whatever is held. -/
theorem holding_of_same {vs : List Value} {r : Outcome α}
    (h : x { s with held := vs ++ s.held } = (r, { s with held := vs ++ s.held })) :
    holding vs x s = (r, s) := by
  rw [holding_of_eq h]

theorem checkArguments_of_le {count : Nat} (h : count ≤ s.stack.limits.maxArguments) :
    checkArguments count s = (.done (), s) := by
  rw [checkArguments, CallStack.checkArguments, if_neg (Nat.not_lt.mpr h)]

/-- Holding nothing changes nothing. -/
theorem holding_nil (hx : (x s).2.held = s.held) :
    holding [] x s = x s := by
  have hrun : holding [] x s = ((x s).1, { (x s).2 with held := s.held }) := rfl
  rw [hrun, ← hx]

end Run

/-! ## Reading what an object lists -/

namespace Invoker

variable {inv : Invoker}

@[simp] theorem toNumber_number (n : Number) :
    inv.toNumber (.number n) = pure (.number n) := rfl

@[simp] theorem toWord_number (n : Number) : inv.toWord (.number n) = pure n.toWord := rfl

end Invoker

namespace Builtin

variable {inv : Invoker} {f list : Address} {t : Value} {vs : List Value} {s : Machine}

theorem callee_of_callable (hf : (s.heap.get f).isCallable = true) :
    callee (.object f) s = (.done f, s) :=
  Run.bind_of_done _ (Run.isCallable_object hf)

/-- Reading on from the index `i` gives the rest of the list. -/
theorem elements_of_lists {i n : Nat} (hl : (s.heap.get list).Lists vs)
    (hin : i + n = vs.length) : elements inv list i n s = (.done (vs.drop i), s) := by
  induction n generalizing i s with
  | zero =>
    rw [Nat.add_zero] at hin
    rw [hin, List.drop_length]
    rfl
  | succ n ih =>
    have hi : i < vs.length := by omega
    obtain ⟨d, hd, hv⟩ := hl.element i hi
    have hrest : Run.holding [d.value] (elements inv list (i + 1) n) s =
        (.done (vs.drop (i + 1)), s) :=
      Run.holding_of_same (ih hl (by omega))
    rw [List.drop_eq_getElem_cons hi, ← hv]
    exact (Run.bind_of_done _ (Invoker.get_of_own hd)).trans (Run.bind_of_done _ hrest)

/-- All that an object lists is read, and nothing runs or changes. -/
theorem elements?_of_lists (hl : (s.heap.get list).Lists vs)
    (hmax : vs.length ≤ s.stack.limits.maxArguments) (hword : vs.length < 2 ^ 32) :
    elements? inv list s = (.done (some vs), s) := by
  obtain ⟨d, hd, hv⟩ := hl.length
  refine (Run.bind_of_done _ (Invoker.get_of_own hd)).trans (Run.holding_of_same ?_)
  rw [hv]
  let u : Machine := { s with held := [.ofInt vs.length] ++ s.held }
  have hchecked : Run.checkArguments vs.length u = (.done (), u) :=
    Run.checkArguments_of_le hmax
  have helements : elements inv list 0 vs.length u = (.done vs, u) :=
    elements_of_lists hl (Nat.zero_add _)
  simp only [Value.ofInt, Invoker.toNumber_number, Invoker.toWord_number, pure_bind,
    Value.isUnknown, Number.toNat_toWord_integer hword]
  exact (Run.bind_of_done _ hchecked).trans (Run.bind_of_done _ helements)

/-- With a receiver that is known, applying a function to an object reads what it lists. -/
theorem apply_of_object (hf : (s.heap.get f).isCallable = true) (ht : t ≠ .unknown) :
    apply.run inv (.object f) [t, .object list] s =
      applyList inv [t, .object list] f list s := by
  have hgate : Value.unknown ∉ [Value.object f, t, .object list] := by simp [ht.symm]
  refine (congrFun (Run.gated_of_known hgate _) s).trans ?_
  exact Run.bind_of_done _ (callee_of_callable hf)

/-- Applying a function to a list is calling it with what is listed, when nothing hangs on
the list. -/
theorem apply_of_lists (hf : (s.heap.get f).isCallable = true)
    (hknown : Value.unknown ∉ t :: vs) (hl : (s.heap.get list).Lists vs)
    (hmax : vs.length ≤ s.stack.limits.maxArguments) (hword : vs.length < 2 ^ 32)
    (hsweep : s.sweep (t :: vs) = s) :
    apply.run inv (.object f) [t, .object list] s = inv.call f t vs s := by
  have ht : t ≠ .unknown := fun ht => hknown (ht ▸ List.mem_cons_self)
  have hread : Run.holding [t, .object list] (elements? inv list) s = (.done (some vs), s) :=
    Run.holding_of_same (elements?_of_lists hl hmax hword)
  have hswept : Run.swept (fun ws : Option (List Value) => t :: ws.getD [])
      (Run.holding [t, .object list] (elements? inv list)) s = (.done (some vs), s) := by
    simp only [Run.swept, hread, Option.getD_some, hsweep]
  have happly : applyList inv [t, .object list] f list s = inv.call f t vs s :=
    (Run.bind_of_done _ hswept).trans (Run.holding_nil rfl)
  exact (apply_of_object hf ht).trans happly

/-- Without a list, or with null or undefined in its place, there are no arguments. -/
theorem apply_of_none (hf : (s.heap.get f).isCallable = true) (ht : t ≠ .unknown)
    {args : List Value} (hargs : args ∈ [[t], [t, .undefined], [t, .null]]) :
    apply.run inv (.object f) args s = inv.call f t [] s := by
  have hgate : Value.unknown ∉ Value.object f :: args := by
    simp only [List.mem_cons, List.not_mem_nil, or_false] at hargs
    rcases hargs with rfl | rfl | rfl <;> simp [Ne.symm ht]
  have happly : applyTo inv (.object f) args s = inv.call f t [] s := by
    refine (Run.bind_of_done _ (callee_of_callable hf)).trans ?_
    simp only [List.mem_cons, List.not_mem_nil, or_false] at hargs
    rcases hargs with rfl | rfl | rfl <;> exact Run.holding_nil rfl
  exact (congrFun (Run.gated_of_known hgate _) s).trans happly

/-- Calling a function with arguments one by one is the call. -/
theorem call_of_known (hf : (s.heap.get f).isCallable = true)
    (hknown : Value.unknown ∉ t :: vs) :
    call.run inv (.object f) (t :: vs) s = inv.call f t vs s := by
  have hgate : Value.unknown ∉ Value.object f :: t :: vs :=
    fun hu => (List.mem_cons.mp hu).elim nofun hknown
  refine (congrFun (Run.gated_of_known hgate _) s).trans ?_
  exact Run.bind_of_done _ (callee_of_callable hf)

end Builtin

/-! ## Making the array and letting it go -/

namespace Machine

variable {s : Machine} {vs hand : List Value}

/-- The machine with an array of the values made, while `hand` goes on being used. -/
def withArray (s : Machine) (vs hand : List Value) : Machine :=
  (s.withHeap (s.heap.alloc (.array vs))).sweep (.object s.heap.next :: hand)

theorem withArray_spec (s : Machine) (vs hand : List Value) :
    Run.swept (fun a => .object a :: hand) (Run.alloc (.array vs)) s =
      (.done s.heap.next, s.withArray vs hand) := rfl

theorem lists_withArray (hword : vs.length < 2 ^ 32) :
    ((s.withArray vs hand).heap.get s.heap.next).Lists vs := by
  refine (Object.lists_array hword).of_own? fun k => ?_
  show (((s.heap.alloc (.array vs)).release _).get s.heap.next).own? k = _
  rw [Heap.own?_release, Heap.get_alloc_next]
  rfl

theorem isCallable_withArray {f : Address} (hf : (s.heap.get f).isCallable = true) :
    ((s.withArray vs hand).heap.get f).isCallable = true := by
  obtain ⟨c, hc⟩ := Option.isSome_iff_exists.mp hf
  have halloc := Heap.KeepsObjects.alloc s.heap (.array vs)
  have hrelease := Heap.KeepsObjects.release (s.heap.alloc (.array vs))
  exact Option.isSome_iff_exists.mpr ⟨c, (halloc.trans (hrelease _)).callable_eq hc⟩

theorem roots_subset_withHeld {ws : List Value} (hw : s.held ⊆ ws) :
    s.roots ⊆ (s.withHeld ws).roots := by
  intro a ha
  rcases List.mem_append.mp ha with ha | ha
  · exact List.mem_append_left _ ha
  · exact List.mem_append_right _ (List.filterMap_subset _ hw ha)

theorem address_mem_roots {ws : List Value} (hw : ws ⊆ s.held) {a : Address}
    (ha : a ∈ ws.filterMap Value.address?) : a ∈ s.roots :=
  List.mem_append_right _ (List.filterMap_subset _ hw ha)

/-- The array may go when its elements stay: there is nothing to cut then. -/
theorem sweep_withArray (hs : s.heap.Acyclic) {hold : List Value} (hhold : hand ⊆ hold)
    (t : Value) : ((s.withArray vs hand).withHeld (hold ++ s.held)).sweep (t :: vs) =
      (s.withArray vs hand).withHeld (hold ++ s.held) := by
  let u := (s.withArray vs hand).withHeld (hold ++ s.held)
  have hroots : ∀ a ∈ s.roots ++ (Value.object s.heap.next :: hand).filterMap Value.address?,
      a ∈ u.roots ++ (t :: vs).filterMap Value.address? ∨ a = s.heap.next := by
    intro a ha
    rcases List.mem_append.mp ha with ha | ha
    · have hmore : a ∈ u.roots :=
        roots_subset_withHeld (List.subset_append_right hold s.held) ha
      exact .inl (List.mem_append_left _ hmore)
    · rcases List.mem_cons.mp ha with rfl | ha
      · exact .inr rfl
      · have hhand : hand ⊆ u.held :=
          List.Subset.trans hhold (List.subset_append_left hold s.held)
        exact .inl (List.mem_append_left _ (address_mem_roots hhand ha))
  have hrefs : ∀ a ∈ (Object.array vs).references,
      a ∈ u.roots ++ (t :: vs).filterMap Value.address? := fun a ha => by
    refine List.mem_append_right _ (List.filterMap_subset _ ?_ (Object.mem_references_array ha))
    exact List.subset_cons_self t vs
  have hrelease : u.heap.release (u.roots ++ (t :: vs).filterMap Value.address?) = u.heap :=
    Heap.release_release_alloc hs hroots hrefs
  show u.withHeap (u.heap.release _) = u
  rw [hrelease]
  rfl

/-- Applying the function to `args` is the same as calling it with the values one by one,
and both are the call itself: the outcome, what happens on the way and the machine that is
left. The caller holds some values meanwhile. -/
def AppliesAsCalled (n : Nat) (hold : List Value) (f : Address) (t : Value)
    (vs args : List Value) (s : Machine) : Prop :=
  Run.holding hold (Builtin.apply.run (dispatch n) (.object f) args) s =
      Run.holding hold ((dispatch n).call f t vs) s ∧
    Run.holding hold (Builtin.call.run (dispatch n) (.object f) (t :: vs)) s =
      Run.holding hold ((dispatch n).call f t vs) s

theorem appliesAsCalled_of_eq {n : Nat} {hold : List Value} {f : Address} {t : Value}
    {args : List Value} (hf : (s.heap.get f).isCallable = true)
    (hknown : Value.unknown ∉ t :: vs)
    (happly : Builtin.apply.run (dispatch n) (.object f) args (s.withHeld (hold ++ s.held)) =
      (dispatch n).call f t vs (s.withHeld (hold ++ s.held))) :
    AppliesAsCalled n hold f t vs args s := by
  have hcall : Builtin.call.run (dispatch n) (.object f) (t :: vs)
        (s.withHeld (hold ++ s.held)) =
      (dispatch n).call f t vs (s.withHeld (hold ++ s.held)) :=
    Builtin.call_of_known hf hknown
  exact ⟨Run.holding_of_eq happly, Run.holding_of_eq hcall⟩

/-- `apply` and `call` agree. Once an array of the values is made, applying a function to it
is the same as calling the function with the values one by one. Whatever scripts have put on
the prototype of arrays has no part in it. The caller holds at least what it had in hand
when the array was made, and the array only if it wants to. Where there are no values, there
need not be an array. -/
theorem apply_agrees_with_call {l : Limits} {s : Machine} (hs : Reachable l s) {f : Address}
    (hf : (s.heap.get f).isCallable = true) {t : Value} {vs : List Value}
    (hknown : Value.unknown ∉ t :: vs) (hmax : vs.length ≤ l.maxArguments)
    (hword : vs.length < 2 ^ 32) (hand : List Value) :
    ∃ s' : Machine,
      Run.swept (fun a => .object a :: hand) (Run.alloc (.array vs)) s =
        (.done s.heap.next, s') ∧
      ∀ (n : Nat) (hold : List Value), hand ⊆ hold →
        AppliesAsCalled n hold f t vs [t, .object s.heap.next] s' ∧
        (vs = [] → ∀ args ∈ [[t], [t, .undefined], [t, .null]],
          AppliesAsCalled n hold f t [] args s ∧
          AppliesAsCalled n hold f t [] args s') := by
  refine ⟨s.withArray vs hand, withArray_spec s vs hand, fun n hold hhold => ⟨?_, ?_⟩⟩
  · have hmax' : vs.length ≤ (s.withArray vs hand).stack.limits.maxArguments := by
      have hlimits : (s.withArray vs hand).stack.limits = l := hs.sound.limits_eq
      rwa [hlimits]
    refine appliesAsCalled_of_eq (isCallable_withArray hf) hknown ?_
    exact Builtin.apply_of_lists (isCallable_withArray hf) hknown (lists_withArray hword) hmax'
      hword (sweep_withArray hs.sound.acyclic hhold t)
  · rintro rfl args hargs
    have ht : t ≠ .unknown := fun ht => hknown (ht ▸ List.mem_cons_self)
    have hnone : ∀ u : Machine, (u.heap.get f).isCallable = true →
        AppliesAsCalled n hold f t [] args u := fun u hu => by
      have hheld : ((u.withHeld (hold ++ u.held)).heap.get f).isCallable = true := hu
      exact appliesAsCalled_of_eq hu hknown (Builtin.apply_of_none hheld ht hargs)
    exact ⟨hnone s hf, hnone _ (isCallable_withArray hf)⟩

/-- Has all objects inherit a `length` and a first element that raise when they are read. -/
def poisoningScript : List Step :=
  let poison : Draft :=
    ⟨.accessor, none, none, some (some (.named "refuse")), none, none, none⟩
  [.keep "refuse" (.create (.scripted 0
      ⟨some ⟨[.raise .rangeError "poisoned"], .constant .undefined⟩, .absent, false⟩)),
    .access (.define (.named "ObjectPrototype") .length poison true false),
    .access (.define (.named "ObjectPrototype") (.index 0) poison true false)]

def poisoned : Machine := (Script.run 1 (fresh .standard) poisoningScript).2

/-- An array does not inherit them, so Function.prototype is applied to it. -/
theorem functionPrototype_applies_on_poisoned :
    (poisoned.heap.get .objectPrototype).hasOwn .length = true ∧
      (poisoned.heap.get .objectPrototype).hasOwn (.index 0) = true ∧
      Reachable .standard poisoned ∧
      (poisoned.heap.get .functionPrototype).isCallable = true ∧
      Value.unknown ∉ [Value.null, .boolean true] ∧
      [Value.boolean true].length ≤ Limits.standard.maxArguments ∧
      [Value.boolean true].length < 2 ^ 32 ∧
      ∃ s' : Machine,
        Run.swept (fun a => [.object a]) (Run.alloc (.array [.boolean true])) poisoned =
          (.done poisoned.heap.next, s') ∧
        ∀ (n : Nat) (hold : List Value), [] ⊆ hold →
          AppliesAsCalled n hold .functionPrototype .null [.boolean true]
            [.null, .object poisoned.heap.next] s' ∧
          ([Value.boolean true] = [] →
            ∀ args ∈ [[Value.null], [.null, .undefined], [.null, .null]],
            AppliesAsCalled n hold .functionPrototype .null [] args poisoned ∧
              AppliesAsCalled n hold .functionPrototype .null [] args s') := by
  have hs : Reachable .standard poisoned := by
    rw [poisoned]
    exact .run 1 poisoningScript
  have hheap : (poisoned.heap.get .objectPrototype).hasOwn .length = true ∧
      (poisoned.heap.get .objectPrototype).hasOwn (.index 0) = true ∧
      (poisoned.heap.get .functionPrototype).isCallable = true := by
    decide +kernel
  obtain ⟨hlength, hindex, hf⟩ := hheap
  have hknown : Value.unknown ∉ [Value.null, .boolean true] := by decide
  have hmax : [Value.boolean true].length ≤ Limits.standard.maxArguments := by decide
  have hword : [Value.boolean true].length < 2 ^ 32 := by decide
  refine ⟨hlength, hindex, hs, hf, hknown, hmax, hword, ?_⟩
  exact apply_agrees_with_call hs hf hknown hmax hword []

end Machine
end ScriptModel
