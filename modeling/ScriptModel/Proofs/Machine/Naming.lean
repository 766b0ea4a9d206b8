import ScriptModel.Proofs.Machine.Conversion
import ScriptModel.Proofs.Machine.Instances
import ScriptModel.Proofs.Machine.Spreading
import ScriptModel.Proofs.Property.Index

/-!
# Properties by number and by text

A script names a property by a value, and the value's text decides which property is meant.
An index and its decimal text mean the same one, other texts mean others, and an integer
that is no index is a name by its text. The methods that ask for an own property are asked
by number and by text alike.
-/

namespace ScriptModel

/-- Every access to a property does the same under both keys. -/
structure Key.SameSlot (k l : Key) : Prop where
  get (inv : Invoker) (o : Address) : inv.get o k = inv.get o l
  put (inv : Invoker) (o : Address) (v : Value) (throws overrides : Bool) :
    inv.put o k v throws overrides = inv.put o l v throws overrides
  define (o : Address) (f : Fragment) (throws overrides : Bool) :
    Run.define o k f throws overrides = Run.define o l f throws overrides
  delete (o : Address) (throws : Bool) : Run.delete o k throws = Run.delete o l throws
  own? (o : Object) : o.own? k = o.own? l
  hasOwn (o : Object) : o.hasOwn k = o.hasOwn l

/-- No change of a property under the one key is seen under the other. -/
structure Key.Apart (k l : Key) : Prop where
  define {o obj : Object} {f : Fragment} {overrides : Bool} :
    o.define k f overrides = .ok obj → obj.own? l = o.own? l
  delete {o obj : Object} : o.delete k = .ok obj → obj.own? l = o.own? l

theorem Key.SameSlot.refl (k : Key) : k.SameSlot k :=
  ⟨fun _ _ => rfl, fun _ _ _ _ _ => rfl, fun _ _ _ _ => rfl, fun _ _ => rfl, fun _ => rfl,
    fun _ => rfl⟩

theorem Key.apart_of_ne {k l : Key} (h : l ≠ k) : k.Apart l :=
  ⟨fun hdefine => Object.own?_of_define_ne hdefine h,
    fun hdelete => Object.own?_of_delete_ne hdelete h⟩

/-! ## The key that a value names -/

theorem Invoker.toKey_of_text {v : Value} {t : String} (hv : v.isObject = false)
    (ht : v.primitiveText = .string t) (inv : Invoker) :
    inv.toKey v = pure (some (.ofString t)) := by
  rw [toKey, toText_of_not_object hv, ht]
  rfl

/-- The value is the integer or the text of it. -/
inductive Value.Spells (n : Int64) : Value → Prop
  | number : Spells n (.number (.integer n))
  | text : Spells n (.string n.toInt.repr)

theorem Value.Spells.known {n : Int64} {v : Value} (hv : v.Spells n) : v ≠ .unknown := by
  cases hv <;> exact nofun

theorem Value.Spells.toKey {n : Int64} {v : Value} (hv : v.Spells n) (inv : Invoker) :
    inv.toKey v = pure (some (.ofInteger n.toInt)) := by
  rw [← Key.ofString_int_repr]
  cases hv <;> exact inv.toKey_of_text rfl rfl

/-! ## Asking for an own property -/

namespace Builtin

/-- The method asks the question about what the receiver has under a key. -/
inductive Asks : Builtin → (Option Property → Bool) → Prop
  | hasOwn : Asks .hasOwnProperty Option.isSome
  | isEnumerable : Asks .propertyIsEnumerable (Option.any Property.enumerable)

variable {inv : Invoker} {o : Address} {v : Value} {rest : List Value} {k : Key} {s : Machine}

theorem askOwn_of_key (hk : inv.toKey v = pure (some k)) (question : Object → Key → Bool) :
    askOwn inv (.object o) (v :: rest) question s =
      (.done (.boolean (question (s.heap.get o) k)), s) := by
  refine Run.holding_of_same ?_
  have hkey : inv.toKey (argument (v :: rest) 0) = pure (some k) := hk
  rw [hkey]
  rfl

theorem Asks.run {b : Builtin} {ask : Option Property → Bool} (hb : b.Asks ask)
    (hk : inv.toKey v = pure (some k)) (hv : v ≠ .unknown) (hrest : .unknown ∉ rest) :
    b.run inv (.object o) (v :: rest) s =
      (.done (.boolean (ask ((s.heap.get o).own? k))), s) := by
  have hgate : Value.unknown ∉ Value.object o :: v :: rest := by simp [hv.symm, hrest]
  cases hb with
  | hasOwn =>
    exact (congrFun (Run.gated_of_known hgate _) s).trans (askOwn_of_key hk Object.hasOwn)
  | isEnumerable =>
    refine (congrFun (Run.gated_of_known hgate _) s).trans ((askOwn_of_key hk _).trans ?_)
    cases (s.heap.get o).own? k <;> rfl

end Builtin

namespace Machine

/-- Strings and keys. A key made from a string has the string as its text, so that different
strings make different keys, and no change of the one property is seen under the other. The
key is an index exactly when the string is the decimal text of one, and otherwise the string
as a name; so the number and the text lead to the same property in every access. A method
that asks for an own property, with an integer or with the text of it as the argument,
answers from what the receiver has under the index if the integer is one, and under the text
as a name if not; it changes nothing, and a call of it leaves only its frame in the
trace. -/
theorem names_address_slots :
    (∀ t, (Key.ofString t).text = t) ∧
    (∀ t u, t ≠ u → Key.ofString t ≠ .ofString u ∧ (Key.ofString t).Apart (.ofString u)) ∧
    (∀ t i, Key.ofString t = .index i ↔ i.toNat < Key.indexBound ∧ IsDecimal t i.toNat) ∧
    (∀ t, (∀ n < Key.indexBound, ¬ IsDecimal t n) → Key.ofString t = .name t) ∧
    (∀ i : UInt32, i.toNat < Key.indexBound → (Key.index i).SameSlot (.ofString i.toNat.repr)) ∧
    ∀ (n : Int64) v, v.Spells n → ∀ b ask, Builtin.Asks b ask → ∀ rest, .unknown ∉ rest →
      ∀ (o : Address) (s : Machine),
        let answer := ask ((s.heap.get o).own? (.ofInteger n.toInt))
        (∀ inv, b.run inv (.object o) (v :: rest) s = (.done (.boolean answer), s)) ∧
        ∀ m g q, (s.heap.get g).callable = some (.native q) → q.behaviour = .builtin b →
          s.admits = true →
          (dispatch (m + 1)).call g (.object o) (v :: rest) s =
            (.done (.boolean answer), s.visited 1) := by
  refine ⟨Key.text_ofString, fun t u htu => ?_, fun t i => Key.ofString_eq_index_iff,
    fun t => Key.ofString_eq_name, fun i hi => ?_, fun n v hv b ask hb rest hrest o s => ?_⟩
  · have hne : Key.ofString t ≠ .ofString u := fun h => htu (Key.ofString_injective h)
    exact ⟨hne, Key.apart_of_ne hne.symm⟩
  · rw [Key.ofString_eq_index_iff.mpr ⟨hi, .repr i.toNat⟩]
    exact .refl _
  · have hrun : ∀ (inv : Invoker) (t : Machine), b.run inv (.object o) (v :: rest) t =
        (.done (.boolean (ask ((t.heap.get o).own? (.ofInteger n.toInt)))), t) :=
      fun inv _ => hb.run (hv.toKey inv) hv.known hrest
    refine ⟨fun inv => hrun inv s, fun m g q hg hq ha => ?_⟩
    refine Invoker.call_of_same hg hq ha fun t ht => ?_
    rw [hrun, ht]

/-- A property under 7 and one under 2^32 - 1, which is too large for an index: both are
found by number and by text, and only the first is enumerable. -/
theorem seven_and_word_bound_named :
    let o := ((bareHeap.get .objectPrototype).withProperty (.index 7)
      (Object.dataProperty .null true true true)).withProperty (.name "4294967295")
      (Object.dataProperty .null true false true)
    let method : Object := .native "hasOwnProperty" 1 (.builtin .hasOwnProperty) none
    let s := (bare .standard).withHeap ((bareHeap.alloc method).set .objectPrototype o)
    Key.ofString "07" ≠ .ofString "7" ∧ Key.ofString "4294967295" = .name "4294967295" ∧
      (Key.index 7).SameSlot (.ofString "7") ∧
      (∀ m, (dispatch (m + 1)).call ⟨3⟩ (.object .objectPrototype) [.string "7"] s =
        (.done (.boolean true), s.visited 1)) ∧
      (∀ m, (dispatch (m + 1)).call ⟨3⟩ (.object .objectPrototype)
        [.number (.integer 4294967295)] s = (.done (.boolean true), s.visited 1)) ∧
      (∀ inv, Builtin.propertyIsEnumerable.run inv (.object .objectPrototype)
        [.number (.integer 7)] s = (.done (.boolean true), s)) ∧
      ∀ inv, Builtin.propertyIsEnumerable.run inv (.object .objectPrototype)
        [.string "4294967295"] s = (.done (.boolean false), s) := by
  intro o method s
  obtain ⟨-, happart, -, hname, hindex, hasked⟩ := names_address_slots
  have hbound : ∀ n < Key.indexBound, ¬ IsDecimal "4294967295" n := by
    rintro n hn hdecimal
    have hvalue : n = 4294967295 := hdecimal.unique (.repr 4294967295)
    rw [hvalue] at hn
    exact absurd hn (by decide)
  refine ⟨(happart "07" "7" (by decide)).1, hname _ hbound, hindex 7 (by decide),
    fun m => ?_, fun m => ?_, fun inv => ?_, fun inv => ?_⟩
  · exact (hasked 7 _ .text _ _ .hasOwn [] (by simp) .objectPrototype s).2
      m ⟨3⟩ _ rfl rfl rfl
  · exact (hasked 4294967295 _ .number _ _ .hasOwn [] (by simp) .objectPrototype s).2
      m ⟨3⟩ _ rfl rfl rfl
  · exact (hasked 7 _ .number _ _ .isEnumerable [] (by simp) .objectPrototype s).1 inv
  · exact (hasked 4294967295 _ .text _ _ .isEnumerable [] (by simp) .objectPrototype s).1 inv

end Machine
end ScriptModel
