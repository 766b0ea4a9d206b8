import ScriptModel.Heap.Chain
import ScriptModel.Heap.Lifetime

/-!
# Look-ups after changes of the heap

One equation for every operation of the heap, for all addresses at once. An address that was
not given out reads as a blank object before and after. No operation takes an object away,
or changes its class or what makes it callable.
-/

namespace ScriptModel

namespace Object

variable {o obj : Object} {k : Key}

/-- A definition changes the properties alone. -/
theorem table_of_define {f : Fragment} {overrides : Bool}
    (h : o.define k f overrides = .ok obj) : obj = { o with table := obj.table } := by
  rcases define_eq_ok h with ⟨_, rfl⟩ | ⟨p, _, rfl⟩ <;> rfl

/-- A deletion changes the properties alone. -/
theorem table_of_delete (h : o.delete k = .ok obj) :
    obj = { o with table := obj.table } := by
  unfold delete at h
  split at h
  · cases h
    rfl
  · split at h
    · cases h
      rfl
    · cases h

theorem proto_of_define {f : Fragment} {overrides : Bool}
    (h : o.define k f overrides = .ok obj) :
    obj.proto = o.proto := by rw [table_of_define h]

theorem callable_of_define {f : Fragment} {overrides : Bool}
    (h : o.define k f overrides = .ok obj) : obj.callable = o.callable := by
  rw [table_of_define h]

theorem callable_of_delete (h : o.delete k = .ok obj) : obj.callable = o.callable := by
  rw [table_of_delete h]

theorem cls_of_define {f : Fragment} {overrides : Bool}
    (h : o.define k f overrides = .ok obj) : obj.cls = o.cls := by rw [table_of_define h]

theorem cls_of_delete (h : o.delete k = .ok obj) : obj.cls = o.cls := by
  rw [table_of_delete h]

theorem proto_of_delete (h : o.delete k = .ok obj) : obj.proto = o.proto := by
  rw [table_of_delete h]

end Object

namespace Heap

theorem get_modify (h : Heap) (a b : Address) (f : Object → Object) :
    (h.modify a f).get b = if b = a ∧ h.contains a = true then f (h.get b) else h.get b := by
  by_cases hb : b = a
  · subst hb
    by_cases hc : h.contains b = true
    · simp [get_modify_self f hc, hc]
    · have hn : h.contains b = false := by simpa using hc
      have hm : (h.modify b f).contains b = false := by simpa using hn
      simp [get_of_not_contains hn, get_of_not_contains hm, hn]
  · simp [get_modify_ne f hb, hb]

theorem get_set (h : Heap) (a b : Address) (o : Object) :
    (h.set a o).get b = if b = a ∧ h.contains a = true then o else h.get b :=
  get_modify h a b fun _ => o

/-- Storing what is there changes nothing. -/
theorem set_get (h : Heap) (a : Address) : h.set a (h.get a) = h := by
  cases h with
  | mk objects =>
    simp only [set, modify, mk.injEq]
    refine Array.ext (by simp) fun i hi hi' => ?_
    rw [Array.getElem_modify]
    split
    · rename_i hia
      subst hia
      exact get_eq_getElem hi'
    · rfl

theorem get_relink (h : Heap) (a b : Address) (p : Option Address) :
    (h.relink a p).get b =
      if b = a ∧ h.contains a = true then { h.get b with proto := h.link p } else h.get b :=
  get_modify h a b _

theorem get_alloc (h : Heap) (o : Object) (a : Address) :
    (h.alloc o).get a = if a = h.next then { o with proto := h.link o.proto } else h.get a := by
  by_cases ha : a = h.next
  · subst ha
    simp
  · rw [if_neg ha]
    cases hc : h.contains a with
    | true => exact get_alloc_of_contains o hc
    | false =>
      have hn : ¬ a.index < h.objects.size + 1 := by
        intro hlt
        have hge : ¬ a.index < h.objects.size := by
          intro hi
          rw [contains_iff.mpr hi] at hc
          cases hc
        apply ha
        show a = ⟨h.objects.size⟩
        cases a
        simp only [Address.mk.injEq] at *
        omega
      have hc' : (h.alloc o).contains a = false := by
        simpa [contains, size, alloc] using Nat.le_of_not_lt hn
      rw [get_of_not_contains hc, get_of_not_contains hc']

theorem contains_alloc {h : Heap} (o : Object) {a : Address} (ha : h.contains a = true) :
    (h.alloc o).contains a = true := by
  simp only [contains, size_alloc, decide_eq_true_eq] at ha ⊢
  omega

theorem get_unlink (h : Heap) (lives : Address → Bool) (a : Address) :
    (h.unlink lives).get a = { h.get a with proto := (h.get a).proto.filter lives } := by
  by_cases ha : a.index < h.objects.size
  · simp [get, unlink, Array.getD, ha]
  · have hu : ¬ a.index < (h.unlink lives).objects.size := by simpa [unlink] using ha
    simp only [get, Array.getD, ha, hu, dite_false]
    rfl

/-- Cutting the links to what does not live changes nothing when all that is linked to
lives. -/
theorem unlink_of_all {h : Heap} {lives : Address → Bool}
    (hall : (h.objects.all fun o => o.proto.all lives) = true) : h.unlink lives = h := by
  have hid : h.objects.map (fun o => { o with proto := o.proto.filter lives }) =
      h.objects.map id := by
    refine Array.map_congr_left fun o ho => ?_
    have hl := (Array.all_eq_true_iff_forall_mem.mp hall) o ho
    have hf : o.proto.filter lives = o.proto := by
      cases hp : o.proto with
      | none => rfl
      | some p =>
        rw [hp] at hl
        simpa [Option.filter] using hl
    rw [hf]
    rfl
  unfold unlink
  rw [hid, Array.map_id]

/-- Releasing cuts the links to what does not live, also when there are none to cut. -/
theorem release_eq_unlink (h : Heap) (roots : List Address) :
    h.release roots = h.unlink fun a => (h.living roots).getD a.index false := by
  unfold release
  dsimp only
  split
  · rename_i hall
    exact (unlink_of_all hall).symm
  · rfl

/-- Letting objects go concerns links alone. -/
theorem own?_release (h : Heap) (roots : List Address) (a : Address) (k : Key) :
    ((h.release roots).get a).own? k = (h.get a).own? k := by
  rw [release_eq_unlink, get_unlink]
  rfl

theorem size_unlink (h : Heap) (lives : Address → Bool) :
    (h.unlink lives).size = h.size := by
  simp [size, unlink]

/-- A change of prototypes is none, or one that relinks a single object. -/
theorem setPrototype_eq_some {h h' : Heap} {o : Address} {p : Option Address}
    (hs : h.setPrototype o p = some h') :
    (h' = h ∧ (h.get o).proto = p) ∨
      (h' = h.relink o p ∧ (h.get o).extensible = true ∧ h.wouldCycle o p = false) := by
  unfold setPrototype at hs
  split at hs
  · rename_i hp
    cases hs
    exact .inl ⟨rfl, hp⟩
  · split at hs
    · cases hs
    · rename_i hn
      cases hs
      simp only [Bool.or_eq_true, Bool.not_eq_true', not_or, Bool.not_eq_false,
        Bool.not_eq_true] at hn
      exact .inr ⟨rfl, hn⟩

/-! ## What stays of objects -/

theorem contains_of_callable {h : Heap} {a : Address} {c : Callable Step}
    (hc : (h.get a).callable = some c) : h.contains a = true := by
  cases ha : h.contains a with
  | true => rfl
  | false =>
    rw [get_of_not_contains ha] at hc
    cases hc

/-- The objects of the first heap are in the second, of the same class, and functions are
the same functions. -/
structure KeepsObjects (h h' : Heap) : Prop where
  contains : ∀ a, h.contains a = true → h'.contains a = true
  cls : ∀ a, h.contains a = true → (h'.get a).cls = (h.get a).cls
  callable : ∀ a, h.contains a = true → (h'.get a).callable = (h.get a).callable

namespace KeepsObjects

variable {h h' h'' : Heap}

theorem refl (h : Heap) : h.KeepsObjects h :=
  ⟨fun _ ha => ha, fun _ _ => rfl, fun _ _ => rfl⟩

theorem trans (hk : h.KeepsObjects h') (hk' : h'.KeepsObjects h'') :
    h.KeepsObjects h'' where
  contains a ha := hk'.contains a (hk.contains a ha)
  cls a ha := (hk'.cls a (hk.contains a ha)).trans (hk.cls a ha)
  callable a ha := (hk'.callable a (hk.contains a ha)).trans (hk.callable a ha)

theorem modify {a : Address} {f : Object → Object}
    (hcls : (f (h.get a)).cls = (h.get a).cls)
    (hcallable : (f (h.get a)).callable = (h.get a).callable) :
    h.KeepsObjects (h.modify a f) := by
  refine ⟨fun b hb => (contains_modify h a b f).trans hb, fun b _ => ?_, fun b _ => ?_⟩
  · rw [get_modify]
    split
    · rename_i hba
      rw [hba.1, hcls]
    · rfl
  · rw [get_modify]
    split
    · rename_i hba
      rw [hba.1, hcallable]
    · rfl

theorem alloc (h : Heap) (o : Object) : h.KeepsObjects (h.alloc o) where
  contains _ ha := contains_alloc o ha
  cls _ ha := by rw [get_alloc_of_contains o ha]
  callable _ ha := by rw [get_alloc_of_contains o ha]

theorem release (h : Heap) (roots : List Address) : h.KeepsObjects (h.release roots) := by
  rw [release_eq_unlink]
  refine ⟨fun a ha => ?_, fun a _ => by rw [get_unlink], fun a _ => by rw [get_unlink]⟩
  rw [Heap.contains, size_unlink]
  exact ha

theorem setPrototype {o : Address} {p : Option Address}
    (hs : h.setPrototype o p = some h') : h.KeepsObjects h' := by
  rcases setPrototype_eq_some hs with ⟨rfl, _⟩ | ⟨rfl, _, _⟩
  · exact .refl _
  · exact .modify rfl rfl

/-- The same function at the same address. -/
theorem callable_eq (hk : h.KeepsObjects h') {a : Address} {c : Callable Step}
    (hc : (h.get a).callable = some c) : (h'.get a).callable = some c :=
  (hk.callable a (contains_of_callable hc)).trans hc

end KeepsObjects
end Heap
end ScriptModel
