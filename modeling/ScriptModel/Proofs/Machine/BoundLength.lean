import ScriptModel.Proofs.Machine.Capture
import ScriptModel.Proofs.Machine.Conversion
import ScriptModel.Proofs.Machine.Spreading
import ScriptModel.Proofs.Number.Difference
import ScriptModel.Proofs.Property.Order

/-!
# The length of a bound function

The `length` of a bound function is what is left of the target's when arguments are fixed.
It is itself a value that nothing can change, so the next `bind` finds it, and along a chain
of binds the lengths go down by what each takes, until nothing is left. A length that is not
known stays so.
-/

namespace ScriptModel

namespace Value

/-- What is left of a length that is no object when as many arguments are taken. -/
def lengthLeft (length : Value) (taken : Nat) : Value :=
  match length.primitiveNumber with
  | .number n => .ofBinary64 (n.integral.sub (.ofInt taken)).clampBelow
  | _ => .unknown

theorem isObject_lengthLeft (v : Value) (taken : Nat) :
    (v.lengthLeft taken).isObject = false := by
  unfold lengthLeft
  split <;> rfl

theorem lengthLeft_integer {i : Int64} {taken : Nat} (hi : i.toInt.natAbs ≤ 2 ^ 53)
    (htaken : taken ≤ 2 ^ 53) :
    (number (.integer i)).lengthLeft taken = .ofInt (max 0 (i.toInt - taken)) := by
  have hleft : i.toInt - taken ≤ 2 ^ 53 := by omega
  show Value.ofBinary64 ((Number.integer i).integral.sub (.ofInt taken)).clampBelow = _
  rw [Number.integral_integer hi, Binary64.sub_ofInt hi htaken,
    Binary64.clampBelow_ofInt hleft,
    ofBinary64, Number.ofBinary64_ofInt (by omega) (by omega)]
  rfl

theorem lengthLeft_ofInt {i : Int} {taken : Nat} (hi : i.natAbs ≤ 2 ^ 53)
    (htaken : taken ≤ 2 ^ 53) :
    (ofInt i).lengthLeft taken = .ofInt (max 0 (i - taken)) := by
  have hint : (Int64.ofInt i).toInt = i := Int64.toInt_ofInt_of_le (by omega) (by omega)
  rw [ofInt, lengthLeft_integer (by rwa [hint]) htaken, hint]

end Value

/-! ## Reading the length -/

namespace Invoker

/-- The `length` of an object as a number. -/
def lengthOf (inv : Invoker) (f : Address) : Run Value := do
  inv.toNumber (← inv.get f .length)

end Invoker

theorem Run.Congruence.lengthOf {R : (α : Type) → Run α → Run α → Prop} (hR : Congruence R)
    {inv inv' : Invoker} (hinv : Invoker.Corresponds R inv inv') (f : Address) :
    R Value (inv.lengthOf f) (inv'.lengthOf f) :=
  hR.bind (hR.get hinv f .length) fun v => hR.toNumber hinv v

namespace Builtin

variable {inv : Invoker} {f : Address} {s u : Machine} {taken : Nat}

/-- Callable objects are functions, so their `length` is always asked for. -/
theorem remainingLength_eq (hf : (s.heap.get f).isCallable = true) :
    remainingLength inv f taken s = (do
      let length ← inv.lengthOf f
      if length.isUnknown then return Value.unknown
      else
        let n ← inv.toInteger length
        return Value.ofBinary64 (n.sub (.ofInt taken)).clampBelow) s := by
  have hcls : ¬ (s.heap.get f).cls ≠ .function :=
    fun h => h ((s.heap.get f).cls_of_callable hf)
  rw [Invoker.lengthOf, bind_assoc]
  exact congrFun (if_neg hcls) s

theorem remainingLength_of_unknown (hf : (s.heap.get f).isCallable = true)
    (h : inv.lengthOf f s = (.done .unknown, u)) :
    remainingLength inv f taken s = (.done .unknown, u) :=
  (remainingLength_eq hf).trans (Run.bind_of_done _ h)

theorem remainingLength_of_value {v : Value} (hf : (s.heap.get f).isCallable = true)
    (hget : inv.get f .length s = (.done v, s)) (hv : v.isObject = false) :
    remainingLength inv f taken s = (.done (v.lengthLeft taken), s) := by
  have hread : inv.lengthOf f s = (.done v.primitiveNumber, s) := by
    refine (Run.bind_of_done _ hget).trans ?_
    rw [Invoker.toNumber_of_not_object hv]
    rfl
  refine (remainingLength_eq hf).trans ((Run.bind_of_done _ hread).trans ?_)
  cases v with
  | object a => cases hv
  | _ => rfl

end Builtin
/-! ## Making bound functions -/

theorem Heap.Binds.isCallable {h : Heap} {b : Address} {g : Bound} {length : Value}
    (hb : h.Binds b g length) : (h.get b).isCallable = true :=
  Option.isSome_iff_exists.mpr ⟨_, hb.callable⟩

/-- The second heap has a new object that is the bound function for `g`, as `bind` makes
it. -/
structure Heap.BindsNew (h h' : Heap) (b : Address) (g : Bound) (length : Value) : Prop
    extends h'.Binds b g length where
  new : h.contains b = false
  keys : (h'.get b).keys = [.length, .caller, .arguments]
  extensible : (h'.get b).extensible = true
  proto : (h'.get b).proto = some .functionPrototype

theorem Builtin.keys_boundObject (g : Bound) (length : Value) :
    (boundObject g length).keys = [.length, .caller, .arguments] := by
  have hkeys : (boundObject g length).table.keys = [.length, .caller, .arguments] := rfl
  rw [Object.keys, PropertyTable.orderedKeys_of_names, hkeys]
  rw [hkeys]
  decide

/-- An object that is made is new to every heap that came before. -/
theorem Heap.bindsNew_alloc {h h' : Heap} (hk : h.KeepsObjects h')
    (hf : h'.contains .functionPrototype = true) (g : Bound) (length : Value) :
    h.BindsNew (h'.alloc (Builtin.boundObject g length)) h'.next g length where
  toBinds := h'.binds_alloc g length
  new := by
    cases hb : h.contains h'.next with
    | false => rfl
    | true =>
      have hlater := hk.contains _ hb
      rw [not_contains_next] at hlater
      cases hlater
  keys := by
    rw [get_alloc_next]
    exact Builtin.keys_boundObject g length
  extensible := by
    rw [get_alloc_next]
    rfl
  proto := by
    rw [get_alloc_next]
    exact link_of_contains hf

/-- Binding a function comes to a bound function whenever its length can be found. -/
theorem Builtin.bind_of_remainingLength {inv : Invoker} {f : Address} {s u : Machine}
    {args : List Value} {length : Value} (hf : (s.heap.get f).isCallable = true)
    (hknown : Value.unknown ∉ args)
    (h : remainingLength inv f (args.drop 1).length (s.withHeld (args ++ s.held)) =
      (.done length, u)) :
    bind.run inv (.object f) args s = (.done (.object u.heap.next),
      (u.withHeld s.held).withHeap
        (u.heap.alloc (boundObject ⟨f, argument args 0, args.drop 1⟩ length))) := by
  have hgate : Value.unknown ∉ Value.object f :: args := by simp [hknown]
  refine (congrFun (Run.gated_of_known hgate _) s).trans ?_
  refine (Run.bind_of_done _ (callee_of_callable hf)).trans ?_
  exact Run.bind_of_done _ (Run.holding_of_eq h)

/-! ## One bind after another -/

/-- How many arguments `bind` fixes when it is called with these. -/
def Builtin.fixedCount (args : List Value) : Nat := (args.drop 1).length

namespace Invoker

open Machine
open Builtin (fixedCount)

/-- The function is bound with the first arguments, what comes of that with the next ones,
and so on, on whatever machines the one before leads to. Each bind makes a new bound
function. Its length is that for all the arguments that were fixed until then. -/
def BindsInTurn (inv : Invoker) (lengthFor : Nat → Value) :
    Machine → Address → Nat → List (List Value) → Prop
  | _, _, _, [] => True
  | s, f, taken, args :: rest =>
    ∃ b t, Builtin.bind.run inv (.object f) args s = (.done (.object b), t) ∧
      s.heap.BindsNew t.heap b ⟨f, Builtin.argument args 0, args.drop 1⟩
        (lengthFor (taken + fixedCount args)) ∧
      ∀ u, Path t u → BindsInTurn inv lengthFor u b (taken + fixedCount args) rest

variable {inv : Invoker} {lengthFor : Nat → Value} {l : Limits} {s u : Machine} {f : Address}
  {taken : Nat} {args : List Value} {rest binds : List (List Value)}

/-- The first bind, when the length can be found; the others are to follow. -/
theorem bindsInTurn_cons (hs : Reachable l s) (hf : (s.heap.get f).isCallable = true)
    (hknown : Value.unknown ∉ args) (hpath : Path s u)
    (hlength : Builtin.remainingLength inv f (fixedCount args) (s.withHeld (args ++ s.held)) =
      (.done (lengthFor (taken + fixedCount args)), u))
    (hrest : ∀ b t, Path s t → t.heap.Binds b ⟨f, Builtin.argument args 0, args.drop 1⟩
      (lengthFor (taken + fixedCount args)) →
        inv.BindsInTurn lengthFor t b (taken + fixedCount args) rest) :
    inv.BindsInTurn lengthFor s f taken (args :: rest) := by
  have hheld : Path s (u.withHeld s.held) := hpath.trans (Act.hold _).path
  have hprototype : u.heap.contains .functionPrototype = true :=
    (hs.path hheld).keepsObjects.contains _ (by decide)
  have hnew := Heap.bindsNew_alloc hheld.keepsObjects hprototype
    ⟨f, Builtin.argument args 0, args.drop 1⟩ (lengthFor (taken + fixedCount args))
  refine ⟨_, _, Builtin.bind_of_remainingLength hf hknown hlength, hnew, fun t ht => ?_⟩
  exact hrest _ t ((hheld.trans (Act.alloc _).path).trans ht) (hnew.toBinds.later ht)

/-- A length that is a value is found without running anything, and so is that of every
function that is bound in turn. So the lengths are right when each follows from the one
before. -/
theorem bindsInTurn_of_value (limit : Nat) {c : Address} {d : DataProperty}
    (hs : Reachable l s)
    (hf : (s.heap.get f).isCallable = true) (hfind : s.heap.Finds .length f c (.data d))
    (hd : d.value.isObject = false)
    (hfirst : ∀ k, taken + k ≤ limit → d.value.lengthLeft k = lengthFor (taken + k))
    (hnext : ∀ m k, m + k ≤ limit → (lengthFor m).lengthLeft k = lengthFor (m + k))
    (hknown : ∀ args ∈ binds, Value.unknown ∉ args)
    (hsum : taken + (binds.map fixedCount).sum ≤ limit) :
    inv.BindsInTurn lengthFor s f taken binds := by
  induction binds generalizing s f c d taken with
  | nil => trivial
  | cons args rest ih =>
    simp only [List.map_cons, List.sum_cons] at hsum
    have hlength : d.value.lengthLeft (fixedCount args) = lengthFor (taken + fixedCount args) :=
      hfirst (fixedCount args) (by omega)
    let u : Machine := s.withHeld (args ++ s.held)
    have hget : inv.get f .length u = (.done d.value, u) :=
      inv.get_of_data (hs.sound.acyclic.find?_iff.mpr hfind)
    have hremaining : Builtin.remainingLength inv f (fixedCount args) u =
        (.done (lengthFor (taken + fixedCount args)), u) := by
      rw [← hlength]
      exact Builtin.remainingLength_of_value (s := u) hf hget hd
    obtain ⟨hargs, hrest⟩ := List.forall_mem_cons.mp hknown
    refine bindsInTurn_cons hs hf hargs (Act.hold _).path hremaining fun b t ht hb => ?_
    refine ih (hs.path ht) hb.isCallable (.own hb.length) ?_
      (fun k hk => hnext _ k hk) hrest (by omega)
    show (lengthFor (taken + fixedCount args)).isObject = false
    rw [← hlength]
    exact Value.isObject_lengthLeft _ _

end Invoker

namespace Machine

open Builtin (fixedCount)

/-- Along a chain of binds the lengths go down by what each bind takes, and stop at zero.
Where the `length` of a function is an integer within 2^53, found as a value, and all
arguments are known and fewer than that, every bind of the chain succeeds; it makes a new
extensible function that inherits from Function.prototype and has three properties, and its
length is that integer less all arguments fixed until then, or zero. Where the `length`
turns out to be undetermined, the bind succeeds too, and the lengths of all functions of the
chain are undetermined. -/
theorem bound_lengths_in_turn {l : Limits} {s : Machine} (hs : Reachable l s) {f : Address}
    (hf : (s.heap.get f).isCallable = true) {binds : List (List Value)}
    (hknown : ∀ args ∈ binds, Value.unknown ∉ args) :
    (∀ c d i, s.heap.Finds .length f c (.data d) → d.value = .number (.integer i) →
      i.toInt.natAbs ≤ 2 ^ 53 → (binds.map fixedCount).sum < 2 ^ 53 → ∀ inv : Invoker,
        inv.BindsInTurn (fun taken => .ofInt (max 0 (i.toInt - taken))) s f 0 binds) ∧
    ∀ n args rest u, binds = args :: rest →
      (dispatch n).lengthOf f (s.withHeld (args ++ s.held)) = (.done .unknown, u) →
        (dispatch n).BindsInTurn (fun _ => .unknown) s f 0 binds := by
  constructor
  · intro c d i hfind hd hi hsum inv
    refine Invoker.bindsInTurn_of_value (2 ^ 53) hs hf hfind (by rw [hd]; rfl)
      (fun k hk => ?_) (fun m k hmk => ?_) hknown (by omega)
    · rw [hd, Value.lengthLeft_integer hi (by omega), Nat.zero_add]
    · have hleft : max 0 (max 0 (i.toInt - m) - k) = max 0 (i.toInt - (m + k : Nat)) := by omega
      rw [Value.lengthLeft_ofInt (by omega) (by omega), hleft]
  · rintro n args rest u rfl hlength
    have hremaining : Builtin.remainingLength (dispatch n) f (fixedCount args)
        (s.withHeld (args ++ s.held)) = (.done .unknown, u) :=
      Builtin.remainingLength_of_unknown hf hlength
    have hpath : Path s u := by
      have hread := Run.congruence_path.lengthOf (Run.dispatch_path n) f
        (s.withHeld (args ++ s.held))
      rw [hlength] at hread
      exact (Act.hold _).path.trans hread
    obtain ⟨hargs, hrest⟩ := List.forall_mem_cons.mp hknown
    refine Invoker.bindsInTurn_cons hs hf hargs hpath hremaining fun b t ht hb => ?_
    exact Invoker.bindsInTurn_of_value (fixedCount args + (rest.map fixedCount).sum)
      (hs.path ht)
      hb.isCallable (.own hb.length) rfl (fun _ _ => rfl) (fun _ _ _ => rfl) hrest (by omega)

/-- The method `apply` takes two arguments. Bound three times, it is left with one, then
still with one, and then with none. -/
theorem apply_bound_three_times :
    let s := fresh .standard
    let apply : Address := ⟨15⟩
    let binds : List (List Value) :=
      [[.null, .boolean true], [.null], [.null, .null, .null]]
    Reachable .standard s ∧ (s.heap.get apply).isCallable = true ∧
      (∀ args ∈ binds, Value.unknown ∉ args) ∧
      s.heap.Finds .length apply apply (.data ⟨.ofInt 2, false, false, false⟩) ∧
      (binds.map fixedCount).sum < 2 ^ 53 ∧
      ∀ inv : Invoker, ∃ b t,
        Builtin.bind.run inv (.object apply) [.null, .boolean true] s = (.done (.object b), t) ∧
        s.heap.BindsNew t.heap b ⟨apply, .null, [.boolean true]⟩ (.ofInt 1) ∧
        ∃ c u, Builtin.bind.run inv (.object b) [.null] t = (.done (.object c), u) ∧
          t.heap.BindsNew u.heap c ⟨b, .null, []⟩ (.ofInt 1) ∧
          ∃ e w, Builtin.bind.run inv (.object c) [.null, .null, .null] u =
              (.done (.object e), w) ∧
            u.heap.BindsNew w.heap e ⟨c, .null, [.null, .null]⟩ (.ofInt 0) := by
  intro s apply binds
  have hmethod : (s.heap.get apply).isCallable = true ∧
      (s.heap.get apply).own? .length = some (.data ⟨.ofInt 2, false, false, false⟩) := by
    decide +kernel
  obtain ⟨hf, hlength⟩ := hmethod
  have hknown : ∀ args ∈ binds, Value.unknown ∉ args := by decide
  have hsum : (binds.map fixedCount).sum < 2 ^ 53 := by decide
  refine ⟨.fresh, hf, hknown, .own hlength, hsum, fun inv => ?_⟩
  have hturn := (bound_lengths_in_turn (l := .standard) .fresh hf hknown).1 _ _ _ (.own hlength)
    rfl (by decide) hsum inv
  obtain ⟨b, t, hb, hbnew, hturn⟩ := hturn
  obtain ⟨c, u, hc, hcnew, hturn⟩ := hturn t .refl
  obtain ⟨e, w, he, henew, -⟩ := hturn u .refl
  exact ⟨b, t, hb, hbnew, c, u, hc, hcnew, e, w, he, henew⟩

end Machine
end ScriptModel
