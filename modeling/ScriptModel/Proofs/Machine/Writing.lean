import ScriptModel.Proofs.Machine.Definition
import ScriptModel.Proofs.Machine.InstanceTest

/-!
# Writes

A write asks what stands under the key, on the object or above it, and then does one thing.
A setter takes the write. A data property of the object's own takes the value, if it may.
Anything else ends with a new property on the object, if the object takes one. What decides
is asked here once, and the definition that a write ends with never refuses what has been
decided.
-/

namespace ScriptModel

/-! ## Definitions that writes end with -/

namespace Object

variable {o : Object} {k : Key} {v : Value} {overrides : Bool}

theorem merged_valueOnly {d : DataProperty} (hk : o.own? k = some (.data d)) :
    o.merged k (.valueOnly v) = .data { d with value := v } := by
  rw [merged, hk]
  rfl

/-- A data property that is writable or not locked admits any value. -/
theorem admits_valueOnly {d : DataProperty} (hk : o.own? k = some (.data d))
    (hd : d.writable = true ∨ d.configurable = true) :
    o.Admits k (.valueOnly v) overrides := by
  simp only [Admits, hk]
  cases hl : d.configurable with
  | true => exact .inl hl
  | false =>
    have hw : d.writable = true := hd.resolve_right (by simp [hl])
    right
    rw [← Fragment.permittedBy_iff (p := .data d) hl]
    simp [Fragment.permittedBy, Fragment.valueOnly, Fragment.agrees, hw]

theorem merged_new (hk : o.own? k = none) (writable enumerable configurable : Bool) :
    o.merged k (.data v writable enumerable configurable) =
      .data ⟨v, writable, enumerable, configurable⟩ := by
  rw [merged, hk]
  rfl

theorem admits_new (hk : o.own? k = none) (f : Fragment) :
    o.Admits k f overrides ↔ o.extensible = true ∨ overrides = true := by
  simp only [Admits, hk]

end Object

/-! ## Writes case by case -/

/-- Where nothing is in hand, the end of a computation does not matter to the sweep. -/
theorem Run.swept_nil {α : Type} (x : Run α) (s : Machine) :
    swept (fun _ => []) x s = ((x s).1, (x s).2.sweep []) := by
  unfold swept
  rcases x s with ⟨_ | _ | _ | _, t⟩ <;> rfl

namespace Invoker

open Machine

variable {s : Machine} {o holder : Address} {k : Key}

variable (inv : Invoker) (v : Value) (throws overrides : Bool)

/-- The call of a setter with the object as its receiver, as an answer to a write. The
accessor and the object that has it are held meanwhile, and let go of in the end. -/
def setBy (o holder : Address) (a : AccessorProperty) (f : Address) (v : Value) :
    Run Bool :=
  fun s =>
  let kept := .object holder :: (Property.accessor a).references.map Value.object
  let result := inv.call f (.object o) [v] { s with held := kept ++ s.held }
  (result.1.map fun _ => true, { result.2 with held := s.held }.sweep [])

/-- A setter takes the write, and the write is its call. -/
theorem put_of_setter {a : AccessorProperty} {f : Address}
    (hfind : s.heap.find? o k = some (holder, .accessor a)) (hf : a.setter = some f) :
    inv.put o k v throws overrides s = inv.setBy o holder a f v s := by
  rw [put_of_find? inv hfind]
  simp only [hf]
  rw [Run.swept_nil, Run.map_apply]
  rfl

theorem put_of_getterOnly {a : AccessorProperty}
    (hfind : s.heap.find? o k = some (holder, .accessor a)) (hnone : a.setter = none) :
    inv.put o k v throws overrides s = Run.reject throws (.getterOnly k) s := by
  rw [put_of_find? inv hfind]
  simp only [hnone]

/-- A data property of the object's own that may take the value takes it, or keeps the value
that it has if that is the same. -/
theorem put_of_own {d : DataProperty} (ho : s.heap.contains o = true)
    (hown : (s.heap.get o).own? k = some (.data d))
    (hd : d.writable = true ∨ overrides = true ∧ d.configurable = true) :
    ∃ w t, inv.put o k v throws overrides s = (.done true, t) ∧
      (s.noting o overrides).Sets o k (.data { d with value := w }) t ∧
      (w = v ∨ w = d.value ∧ t = s.noting o overrides ∧ v.same d.value = true) := by
  have hadmits : (s.heap.get o).Admits k (.valueOnly v) overrides :=
    Object.admits_valueOnly hown (hd.imp_right And.right)
  have hput : inv.put o k v throws overrides s =
      Run.define o k (.valueOnly v) throws overrides s := by
    rw [put_of_find? inv (Heap.find?_of_own hown)]
    simp only [if_true]
    rw [if_pos (by simpa using hd)]
  obtain ⟨p, t, hdone, hsets, hp⟩ := Run.define_of_admits ho throws hadmits
  rw [Object.merged_valueOnly hown] at hp
  rw [hput, hdone]
  rcases hp with rfl | ⟨hkept, ht, e, w, rfl, hvalue, hsame⟩
  · exact ⟨v, t, rfl, hsets, .inl rfl⟩
  · rw [hown] at hkept
    cases hkept
    cases hvalue
    exact ⟨d.value, t, rfl, hsets, .inr ⟨rfl, ht, hsame⟩⟩

theorem put_of_own_readOnly {d : DataProperty}
    (hown : (s.heap.get o).own? k = some (.data d))
    (hd : ¬ (d.writable = true ∨ overrides = true ∧ d.configurable = true)) :
    inv.put o k v throws overrides s = Run.reject throws (.readOnly k) s := by
  rw [put_of_find? inv (Heap.find?_of_own hown)]
  simp only [if_true]
  rw [if_neg (by simpa using hd)]

theorem put_of_inherited_readOnly {d : DataProperty} (hne : holder ≠ o)
    (hfind : s.heap.find? o k = some (holder, .data d)) (hw : d.writable = false)
    (hoverrides : overrides = false) :
    inv.put o k v throws overrides s = Run.reject throws (.readOnly k) s := by
  rw [put_of_find? inv hfind]
  simp only [if_neg hne, hw, hoverrides]
  rfl

/-- A write that nothing stands in the way of adds a property. -/
theorem put_of_free (hnone : (s.heap.get o).own? k = none)
    (hfree : ∀ b p, s.heap.find? o k = some (b, p) →
      ∃ d, p = .data d ∧ (d.writable = true ∨ overrides = true)) :
    inv.put o k v throws overrides s = Run.add o k v throws overrides s := by
  cases hfind : s.heap.find? o k with
  | none => rw [put_of_find? inv hfind]
  | some found =>
    obtain ⟨b, p⟩ := found
    obtain ⟨d, rfl, hd⟩ := hfree b p hfind
    have hne : b ≠ o := by
      rintro rfl
      rw [(Heap.own_of_find? hfind).2] at hnone
      cases hnone
    rw [put_of_find? inv hfind]
    simp only [if_neg hne]
    have hpass : ¬ (!d.writable && !overrides) = true := by
      rcases hd with hw | hw <;> simp [hw]
    rw [if_neg hpass]

end Invoker

namespace Run

open Machine

variable {s : Machine} {o : Address} {k : Key} {overrides : Bool}

/-- An object that takes a property takes it as assignments make it. -/
theorem add_of_open (v : Value) (throws : Bool) (ho : s.heap.contains o = true)
    (hnone : (s.heap.get o).own? k = none)
    (hopen : (s.heap.get o).extensible = true ∨ overrides = true) :
    ∃ t, add o k v throws overrides s = (.done true, t) ∧
      (s.noting o overrides).Sets o k (.data ⟨v, true, !overrides, true⟩) t := by
  have hadmits := (Object.admits_new hnone (.data v true (!overrides) true)).mpr hopen
  obtain ⟨p, t, hdone, hsets, hp⟩ := define_of_admits ho throws hadmits
  have hnew : p = .data ⟨v, true, !overrides, true⟩ := by
    rcases hp with rfl | ⟨hown, -⟩
    · exact Object.merged_new hnone true (!overrides) true
    · rw [hnone] at hown
      cases hown
  refine ⟨t, ?_, hnew ▸ hsets⟩
  unfold add
  rw [if_pos (by simpa using hopen), hdone]

theorem add_of_closed (v : Value) (throws : Bool)
    (hclosed : ¬ ((s.heap.get o).extensible = true ∨ overrides = true)) :
    add o k v throws overrides s = reject throws (.cannotAdd k) s := by
  unfold add
  rw [if_neg (by simpa using hclosed)]

end Run

namespace Machine

end Machine
end ScriptModel
