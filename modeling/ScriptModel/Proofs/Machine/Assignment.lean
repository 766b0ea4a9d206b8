import ScriptModel.Proofs.Heap.Update
import ScriptModel.Proofs.Machine.Reachable
import ScriptModel.Proofs.Number.Word

/-!
# What an assignment leaves behind

A write, or a definition that names a value, leaves under the key the property as the
fragment wants it (`Fragment.settle`). Where the value there already is the same, nothing is
written: then the old value stays, and what is read afterwards is the old value. It reads as
the new one unless the two are numbers that a double does not hold apart.
-/

namespace ScriptModel

/-! ## Values that read alike -/

namespace Value

/-- The representation of the value does not show. -/
def isSafe : Value → Bool
  | number n => n.isSafe
  | _ => true

/-- Apart from numbers, only a value itself is the same. -/
theorem eq_of_same {v w : Value} (h : v.same w = true) (hv : v.kind ≠ .number) : w = v := by
  cases v <;> cases w <;> simp_all [same, compare, kind]

theorem kind_of_same {v w : Value} (h : v.same w = true) : w.kind = v.kind := by
  cases v <;> cases w <;> simp_all [same, compare, kind]

/-- No reader tells the two values apart: they have one kind, the text and the word that
they convert to are the same, and but for numbers they are one value. -/
structure ReadsAs (w v : Value) : Prop where
  kind : w.kind = v.kind
  itself : v.kind ≠ .number → w = v
  text : ∀ (inv : Invoker) (s : Machine), inv.toText w s = inv.toText v s
  word : ∀ (inv : Invoker) (s : Machine), inv.toWord w s = inv.toWord v s

theorem ReadsAs.refl (v : Value) : v.ReadsAs v :=
  ⟨rfl, fun _ => rfl, fun _ _ => rfl, fun _ _ => rfl⟩

theorem readsAs_of_same {v w : Value} (h : v.same w = true) (hv : v.isSafe = true)
    (hw : w.isSafe = true) : w.ReadsAs v := by
  by_cases hk : v.kind = .number
  · cases v with
    | number m =>
      cases w with
      | number n =>
        obtain ⟨htext, hword⟩ := Number.reads_of_same hv hw h
        refine ⟨rfl, fun hn => absurd rfl hn, fun inv s => ?_, fun inv s => ?_⟩
        · show (Outcome.done (Value.string n.text), s) = (.done (.string m.text), s)
          rw [htext]
        · show (Outcome.done n.toWord, s) = (.done m.toWord, s)
          rw [hword]
      | _ => cases h
    | _ => cases hk
  · rw [eq_of_same h hk]
    exact .refl v

end Value

/-! ## The settled property -/

namespace Fragment

/-- The property under a key when a definition has been accepted. -/
def settle (f : Fragment) : Option Property → Property
  | none => f.create
  | some p => if f.isWithin p then p else f.write (f.base p)

theorem write_data {f : Fragment} (hk : f.kind = .data) (d : DataProperty) :
    f.write (.data d) = .data ⟨f.value.getD d.value, f.writable.getD d.writable,
      f.enumerable.getD d.enumerable, f.configurable.getD d.configurable⟩ := by
  rw [write, writeFlags_data, hk]

section Data

variable {f : Fragment} {v : Value} (hk : f.kind = .data) (hv : f.value = some v)
include hk hv

theorem settle_none :
    f.settle none = .data ⟨v, f.writable.getD false, f.enumerable.getD false,
    f.configurable.getD false⟩ := by
  have hspecific : f.isGeneric = false := by simp [isGeneric, hv]
  rw [settle, create, hspecific, hk]
  exact (write_data hk _).trans (by rw [hv]; rfl)

/-- Nothing is written where all is as the fragment wants it. -/
theorem settle_some (d : DataProperty) :
    f.isWithin (.data d) = true ∧ v.same d.value = true ∧
      f.settle (some (.data d)) = .data d ∨
      f.settle (some (.data d)) = .data ⟨v, f.writable.getD d.writable,
        f.enumerable.getD d.enumerable, f.configurable.getD d.configurable⟩ := by
  have hspecific : f.isGeneric = false := by simp [isGeneric, hv]
  by_cases hw : f.isWithin (.data d) = true
  · have hfields := hw
    simp only [isWithin, hspecific, hk, hv, Bool.false_or, Bool.and_eq_true] at hfields
    exact .inl ⟨hw, hfields.2.1, by rw [settle, if_pos hw]⟩
  · have hbase : f.base (.data d) = .data d := by simp [base, hk, Property.kind]
    right
    rw [settle, if_neg hw, hbase, write_data hk, hv]
    rfl

/-- What stands under the key, unless it was an accessor, is a data property with the value
of the fragment, or the one that was there with the same value. -/
theorem settle_data {old : Option Property} (hold : ∀ a, old ≠ some (.accessor a)) :
    ∃ d, f.settle old = .data d ∧ (d.value = v ∨
      old = some (.data d) ∧ f.isWithin (.data d) = true ∧ v.same d.value = true) := by
  rcases old with _ | d | a
  · exact ⟨_, settle_none hk hv, .inl rfl⟩
  · rcases settle_some hk hv d with ⟨hwithin, hsame, hkept⟩ | hwritten
    · exact ⟨d, hkept, .inr ⟨rfl, hwithin, hsame⟩⟩
    · exact ⟨_, hwritten, .inl rfl⟩
  · exact absurd rfl (hold a)

end Data
end Fragment

namespace Object

variable {o obj : Object} {k : Key} {f : Fragment} {overrides : Bool}

/-- What a merge writes, or leaves, is the settled property. -/
theorem settle_of_merge {p : Option Property} (h : o.merge k f overrides = .ok p) :
    p.or (o.own? k) = some (f.settle (o.own? k)) := by
  unfold merge at h
  split at h
  · rename_i hq
    split at h <;> cases h
    rw [hq]
    rfl
  · rename_i q hq
    rw [hq, Fragment.settle]
    split at h
    · rename_i hw
      cases h
      rw [if_pos hw]
      rfl
    · rename_i hw
      split at h <;> cases h
      rw [if_neg hw]
      rfl

/-- A definition that succeeds settles the property. -/
theorem own?_of_define_self (h : o.define k f overrides = .ok obj) :
    obj.own? k = some (f.settle (o.own? k)) := by
  rcases define_eq_ok h with ⟨hm, rfl⟩ | ⟨p, hm, rfl⟩
  · exact settle_of_merge hm
  · rw [own?_withProperty_self]
    exact settle_of_merge hm

/-- What is as the fragment wants it stays, and the whole object with it. -/
theorem define_of_isWithin {p : Property} (hk : o.own? k = some p)
    (hw : f.isWithin p = true) : o.define k f overrides = .ok o := by
  have hm : o.merge k f overrides = .ok none := by
    unfold merge
    rw [hk]
    exact if_pos hw
  rw [define, hm]

end Object

/-! ## Assignments -/

namespace Run

variable {o : Address} {k : Key} {f : Fragment} {throws overrides : Bool} {s t : Machine}

theorem reject_ne_true {e : Exception} : reject throws e s ≠ (.done true, t) := by
  cases throws <;> exact fun h => by cases h

/-- A definition that is accepted stores the object as defined. -/
theorem define_eq_done (h : define o k f throws overrides s = (.done true, t)) :
    ∃ obj, (s.heap.get o).define k f overrides = .ok obj ∧ t.heap = s.heap.set o obj := by
  have hheap : (if overrides then s.note (.overrode o) else s).heap = s.heap := by
    split <;> rfl
  unfold define at h
  dsimp only at h
  rw [hheap] at h
  split at h
  · rename_i obj hd
    cases h
    exact ⟨obj, hd, rfl⟩
  · exact absurd h reject_ne_true

end Run

namespace Invoker

variable {inv : Invoker} {o : Address} {k : Key} {v : Value} {throws overrides : Bool}
  {s t : Machine}

/-- A write that is accepted, where no accessor takes it, is an accepted definition. -/
theorem put_eq_done (hopen : ∀ b a, s.heap.find? o k ≠ some (b, .accessor a))
    (h : inv.put o k v throws overrides s = (.done true, t)) :
    ∃ f : Fragment, f.kind = .data ∧ f.value = some v ∧
      Run.define o k f throws overrides s = (.done true, t) := by
  have hadd (h : Run.add o k v throws overrides s = (.done true, t)) :
      ∃ f : Fragment, f.kind = .data ∧ f.value = some v ∧
        Run.define o k f throws overrides s = (.done true, t) := by
    unfold Run.add at h
    split at h
    · exact ⟨.data v true (!overrides) true, rfl, rfl, h⟩
    · exact absurd h Run.reject_ne_true
  rcases hfind : s.heap.find? o k with _ | ⟨holder, d | a⟩ <;>
    rw [put_of_find? inv hfind] at h
  · exact hadd h
  · dsimp only at h
    split at h
    · split at h
      · exact ⟨.valueOnly v, rfl, rfl, h⟩
      · exact absurd h Run.reject_ne_true
    · split at h
      · exact absurd h Run.reject_ne_true
      · exact hadd h
  · exact absurd hfind (hopen holder a)

/-- Assigns a value to a property: a write, or a definition that names the value of a data
property. -/
inductive Assigns (inv : Invoker) (o : Address) (k : Key) (v : Value) :
    Run Bool → Prop where
  | put (throws overrides : Bool) : Assigns inv o k v (inv.put o k v throws overrides)
  | define (f : Fragment) (throws overrides : Bool) : f.kind = .data → f.value = some v →
    Assigns inv o k v (Run.define o k f throws overrides)

theorem Assigns.eq_done {x : Run Bool} (hx : Assigns inv o k v x)
    (hopen : ∀ b a, s.heap.find? o k ≠ some (b, .accessor a)) (h : x s = (.done true, t)) :
    ∃ (f : Fragment) (obj : Object) (overrides : Bool), f.kind = .data ∧ f.value = some v ∧
      (s.heap.get o).define k f overrides = .ok obj ∧ t.heap = s.heap.set o obj := by
  cases hx with
  | put throws overrides =>
    obtain ⟨f, hk, hv, h⟩ := put_eq_done hopen h
    obtain ⟨obj, hd, ht⟩ := Run.define_eq_done h
    exact ⟨f, obj, overrides, hk, hv, hd, ht⟩
  | define f throws overrides hk hv =>
    obtain ⟨obj, hd, ht⟩ := Run.define_eq_done h
    exact ⟨f, obj, overrides, hk, hv, hd, ht⟩

end Invoker

namespace Machine

open Invoker

/-- An accepted assignment is read back. Where no accessor is met on the way up, every read
that follows at once yields the value assigned, or else the old value of the object's own
property where the two are the same, in which case no object has changed. The value read has
the kind of the value assigned, and is the value itself unless that is a number; and of a
number no reader sees a difference where the representations of the new and the old one do
not show: where an integer is below 2^53 in magnitude, and no infinity is kept as a
double. -/
theorem assignment_reads_back {s t : Machine} {o : Address} {k : Key} {v : Value}
    {inv : Invoker} {x : Run Bool} (ho : s.heap.contains o = true) (hx : Assigns inv o k v x)
    (hopen : ∀ b a, s.heap.find? o k ≠ some (b, .accessor a))
    (hdone : x s = (.done true, t)) :
    ∃ w, (∀ reader : Invoker, reader.get o k t = (.done w, t)) ∧
      w.kind = v.kind ∧ (v.kind ≠ .number → w = v) ∧
      (w = v ∨ t.heap = s.heap ∧ v.same w = true ∧
        ∃ d, (s.heap.get o).own? k = some (.data d) ∧ d.value = w) ∧
      (v.isSafe = true → (∀ d, (s.heap.get o).own? k = some (.data d) → d.value.isSafe = true) →
        w.ReadsAs v) := by
  obtain ⟨f, obj, overrides, hk, hv, hd, ht⟩ := hx.eq_done hopen hdone
  have hold : ∀ a, (s.heap.get o).own? k ≠ some (.accessor a) :=
    fun a ha => hopen o a (Heap.find?_of_own ha)
  have hnow : (t.heap.get o).own? k = some (f.settle ((s.heap.get o).own? k)) := by
    rw [ht, Heap.get_set, if_pos ⟨rfl, ho⟩]
    exact Object.own?_of_define_self hd
  obtain ⟨d, hsettle, hvalue⟩ := Fragment.settle_data hk hv hold
  rw [hsettle] at hnow
  refine ⟨d.value, fun reader => get_of_own hnow, ?_⟩
  rcases hvalue with rfl | ⟨hown, hwithin, hsame⟩
  · exact ⟨rfl, fun _ => rfl, .inl rfl, fun _ _ => .refl _⟩
  · have hheap : t.heap = s.heap := by
      rw [Object.define_of_isWithin hown hwithin] at hd
      cases hd
      rw [ht, Heap.set_get]
    exact ⟨Value.kind_of_same hsame, Value.eq_of_same hsame,
      .inr ⟨hheap, hsame, d, hown, rfl⟩,
      fun hvs hds => Value.readsAs_of_same hsame hvs (hds d hown)⟩

/-- The machine after a write of a value under the key `x` on Object.prototype. -/
def withValue (s : Machine) (v : Value) : Machine :=
  ((dispatch 1).put .objectPrototype (.ofString "x") v false false s).2

/-- The double 2 is not replaced by the integer, and reads as the integer. -/
theorem two_reads_back :
    let s := (fresh .standard).withValue (.number (.double (Binary64.ofInt 2)))
    s.heap.contains .objectPrototype = true ∧
      (∀ b a, s.heap.find? .objectPrototype (.ofString "x") ≠ some (b, .accessor a)) ∧
      (dispatch 1).put .objectPrototype (.ofString "x") (.ofInt 2) false false s =
        (.done true, s.withValue (.ofInt 2)) ∧
      ∃ w, w ≠ Value.ofInt 2 ∧ w.ReadsAs (.ofInt 2) ∧ ∀ reader : Invoker,
        reader.get .objectPrototype (.ofString "x") (s.withValue (.ofInt 2)) =
          (.done w, s.withValue (.ofInt 2)) := by
  intro s
  have ho : s.heap.contains .objectPrototype = true := by decide +kernel
  have hown : (s.heap.get .objectPrototype).own? (.ofString "x") =
      some (.data ⟨.number (.double (Binary64.ofInt 2)), true, true, true⟩) := by
        decide +kernel
  have hopen : ∀ b a,
      s.heap.find? .objectPrototype (.ofString "x") ≠ some (b, .accessor a) := by
    intro b a hf
    rw [Heap.find?_of_own hown] at hf
    cases hf
  have hdone : ((dispatch 1).put .objectPrototype (.ofString "x") (.ofInt 2) false false s).1 =
      .done true := by decide +kernel
  have hput : (dispatch 1).put .objectPrototype (.ofString "x") (.ofInt 2) false false s =
      (.done true, s.withValue (.ofInt 2)) := Prod.ext hdone rfl
  obtain ⟨w, hget, -, -, -, hreads⟩ :=
    assignment_reads_back ho (.put false false) hopen hput
  have hkept : ((s.withValue (.ofInt 2)).heap.get .objectPrototype).own? (.ofString "x") =
      some (.data ⟨.number (.double (Binary64.ofInt 2)), true, true, true⟩) := by
        decide +kernel
  have hw : w = .number (.double (Binary64.ofInt 2)) := by
    have hread := (hget (dispatch 1)).symm.trans (Invoker.get_of_own hkept)
    injection hread with hread
    injection hread
  refine ⟨ho, hopen, hput, w, ?_, hreads (by decide) fun d hd => ?_, hget⟩
  · rw [hw]
    decide
  · rw [hown] at hd
    cases hd
    decide +kernel

/-- Two integers that a double does not hold apart: the second write is accepted and lost,
and the text of what is read shows it. -/
theorem wide_integer_is_lost :
    let s := (fresh .standard).withValue (.ofInt 9007199254740992)
    (∀ b a, s.heap.find? .objectPrototype (.ofString "x") ≠ some (b, .accessor a)) ∧
      ((dispatch 1).put .objectPrototype (.ofString "x") (.ofInt 9007199254740993) false false
        s).1 = .done true ∧
      ((dispatch 1).get .objectPrototype (.ofString "x")
        (s.withValue (.ofInt 9007199254740993))).1 = .done (.ofInt 9007199254740992) ∧
      ¬ (Value.ofInt 9007199254740992).ReadsAs (.ofInt 9007199254740993) := by
  intro s
  have hown : (s.heap.get .objectPrototype).own? (.ofString "x") =
      some (.data ⟨.ofInt 9007199254740992, true, true, true⟩) := by decide +kernel
  refine ⟨fun b a hf => ?_, by decide +kernel, by decide +kernel, fun hreads => ?_⟩
  · rw [Heap.find?_of_own hown] at hf
    cases hf
  · have htext := congrArg Prod.fst (hreads.text (dispatch 0) s)
    have hsame : (Number.integer (Int64.ofInt 9007199254740992)).text =
        (Number.integer (Int64.ofInt 9007199254740993)).text := by
      injection htext with htext
      injection htext
    revert hsame
    decide

end Machine
end ScriptModel
