import ScriptModel.Object.Basic
import ScriptModel.Proofs.Property.Order

/-!
# Edits of one property

Whatever an operation does to the properties of an object, it does under one key: it writes
there, erases what is there, or leaves it. Under two different keys such edits commute. Only
the list of the keys remembers which came first, and only of two keys that are both new; of
these a script sees the order when both are names.
-/

namespace ScriptModel

namespace PropertyTable

theorem mem_of_find {es : List (Key × Property)} {k : Key} {p : Property}
    (hp : find es k = some p) : (k, p) ∈ es := by
  induction es with
  | nil => cases hp
  | cons e es ih =>
    rw [find] at hp
    split at hp
    · rename_i he
      cases hp
      rw [← he]
      exact List.mem_cons_self
    · exact List.mem_cons_of_mem e (ih hp)

variable {t t' : PropertyTable}

/-- What is listed depends on the keys alone. -/
theorem orderedKeys_congr (h : t'.keys = t.keys) : t'.orderedKeys = t.orderedKeys := by
  rw [orderedKeys, h]
  rfl

/-- The indices are listed alike however the keys stand. -/
theorem indices_of_perm (h : t'.keys.Perm t.keys) :
    ((t'.keys.filterMap indexOf?).mergeSort fun i j => decide (i ≤ j)) =
      (t.keys.filterMap indexOf?).mergeSort fun i j => decide (i ≤ j) := by
  have hsort := List.mergeSort_perm (t.keys.filterMap indexOf?) fun i j => decide (i ≤ j)
  have hsort' := List.mergeSort_perm (t'.keys.filterMap indexOf?) fun i j => decide (i ≤ j)
  have hperm := (hsort'.trans (h.filterMap indexOf?)).trans hsort.symm
  refine hperm.eq_of_pairwise (fun i j _ _ hij hji => ?_) t'.pairwise_indices t.pairwise_indices
  exact absurd hji (UInt32.lt_asymm hij)

/-- Where the last two keys have changed places, so have they in what is listed if both are
names; otherwise the same is listed. -/
theorem orderedKeys_swap {ks : List Key} {k l : Key} (h : t.keys = ks ++ [k, l])
    (h' : t'.keys = ks ++ [l, k]) :
    t'.orderedKeys = t.orderedKeys ∨ (k.isName = true ∧ l.isName = true ∧
      ∃ front, t.orderedKeys = front ++ [k, l] ∧ t'.orderedKeys = front ++ [l, k]) := by
  have hperm : t'.keys.Perm t.keys := by
    rw [h, h']
    exact (List.Perm.swap k l []).append_left ks
  -- The names among two keys in either order are the same, unless both are names.
  have hpair : [l, k].filter Key.isName = [k, l].filter Key.isName ∨
      k.isName = true ∧ l.isName = true := by
    cases k with
    | index i => cases l <;> exact .inl rfl
    | name a =>
      cases l with
      | index i => exact .inl rfl
      | name b => exact .inr ⟨rfl, rfl⟩
  rw [orderedKeys, orderedKeys, indices_of_perm hperm, map_name_filterMap,
    map_name_filterMap, h, h', List.filter_append, List.filter_append]
  rcases hpair with hsame | ⟨hk, hl⟩
  · exact .inl (by rw [hsame])
  · have hfilter : [k, l].filter Key.isName = [k, l] := by simp [hk, hl]
    have hfilter' : [l, k].filter Key.isName = [l, k] := by simp [hk, hl]
    rw [hfilter, hfilter']
    exact .inr ⟨hk, hl, _, (List.append_assoc ..).symm, (List.append_assoc ..).symm⟩

end PropertyTable

/-- What happens under one key of an object. -/
inductive Edit where
  | keep
  | write (p : Property)
  | erase

namespace Object

/-- What an object refers to, its properties and what makes it callable refer to. -/
theorem mem_references_iff {o : Object} {a : Address} : a ∈ o.references ↔
    (∃ b ∈ o.table.bindings, a ∈ b.2.references) ∨ ∃ c, o.callable = some c ∧
      a ∈ c.references := by
  rw [references, List.mem_append, List.mem_flatMap]
  cases o.callable <;> simp

theorem mem_references_of_own {o : Object} {k : Key} {p : Property} {a : Address}
    (hp : o.own? k = some p) (ha : a ∈ p.references) : a ∈ o.references :=
  mem_references_iff.mpr (.inl ⟨(k, p), PropertyTable.mem_of_find hp, ha⟩)

end Object

namespace Edit

/-- The object after the edit. -/
def apply (e : Edit) (k : Key) (o : Object) : Object :=
  match e with
  | keep => o
  | write p => o.withProperty k p
  | erase => { o with table := o.table.erase k }

/-- What the edit makes of the list of the keys. -/
def reorder (e : Edit) (k : Key) (ks : List Key) : List Key :=
  match e with
  | keep => ks
  | write _ => if k ∈ ks then ks else ks ++ [k]
  | erase => ks.filter fun l => decide (l ≠ k)

variable (e e' : Edit) {k k' l : Key} (o : Object)

theorem keys_apply (k : Key) : (e.apply k o).table.keys = e.reorder k o.table.keys := by
  cases e with
  | keep => rfl
  | write p =>
    show o.table.enlist k = if k ∈ o.table.keys then o.table.keys else o.table.keys ++ [k]
    rw [PropertyTable.enlist]
    simp only [PropertyTable.contains_iff_mem_keys]
  | erase => rfl

/-- Nothing but the properties changes. -/
theorem apply_eq (k : Key) : e.apply k o = { o with table := (e.apply k o).table } := by
  cases e <;> rfl

/-- Nothing changes under another key. -/
theorem own?_apply_ne (h : l ≠ k) : (e.apply k o).own? l = o.own? l := by
  cases e with
  | keep => rfl
  | write p => exact o.own?_withProperty_ne p h
  | erase => exact o.table.get?_erase_ne h

/-- What is under the key afterwards depends on what was there. -/
theorem own?_apply_congr {o o' : Object} (h : o'.own? k = o.own? k) :
    (e.apply k o').own? k = (e.apply k o).own? k := by
  cases e with
  | keep => exact h
  | write p =>
    rw [apply, apply, Object.own?_withProperty_self, Object.own?_withProperty_self]
  | erase => exact (o'.table.get?_erase_self k).trans (o.table.get?_erase_self k).symm

/-- A prototype makes no difference to an edit. -/
theorem apply_withProto (k : Key) (p : Option Address) :
    e.apply k { o with proto := p } = { e.apply k o with proto := p } := by
  cases e <;> rfl

/-! ## What an edit brings in -/

/-- The addresses that the edit makes the object refer to. -/
def references : Edit → List Address
  | write p => p.references
  | _ => []

/-- The bindings under other keys stay, and the one under the key stays if it is kept. -/
theorem mem_bindings_apply {b : Key × Property} : b ∈ (e.apply k o).table.bindings ↔
    (b ∈ o.table.bindings ∧ (b.1 = k → e = keep)) ∨ ∃ p, e = write p ∧ b = (k, p) := by
  cases e with
  | keep => simp [apply]
  | write p =>
    show b ∈ (k, p) :: o.table.bindings.filter (fun l => decide (l.1 ≠ k)) ↔ _
    rw [List.mem_cons, List.mem_filter, decide_eq_true_iff]
    constructor
    · rintro (rfl | ⟨hold, hne⟩)
      · exact .inr ⟨p, rfl, rfl⟩
      · exact .inl ⟨hold, fun hb => absurd hb hne⟩
    · rintro (⟨hold, hkept⟩ | ⟨q, hq, rfl⟩)
      · exact .inr ⟨hold, fun hb => nomatch hkept hb⟩
      · cases hq
        exact .inl rfl
  | erase => simp [apply, PropertyTable.erase, PropertyTable.unbind]

theorem mem_references_apply {a : Address} (ha : a ∈ (e.apply k o).references) :
    a ∈ e.references ∨ a ∈ o.references := by
  rw [Object.mem_references_iff, e.apply_eq o k] at ha
  rw [Object.mem_references_iff]
  rcases ha with ⟨b, hb, hab⟩ | hfixed
  · rcases (e.mem_bindings_apply o).mp hb with ⟨hold, _⟩ | ⟨p, rfl, rfl⟩
    · exact .inr (.inl ⟨b, hold, hab⟩)
    · exact .inl hab
  · exact .inr (.inr hfixed)

/-! ## Two edits under different keys -/

variable (hk : k ≠ k')
include hk

/-- Every property is the same in either order. -/
theorem own?_apply_comm (l : Key) :
    (e'.apply k' (e.apply k o)).own? l = (e.apply k (e'.apply k' o)).own? l := by
  by_cases hl : l = k
  · subst hl
    rw [e'.own?_apply_ne _ hk]
    exact (e.own?_apply_congr (e'.own?_apply_ne o hk)).symm
  · rw [e.own?_apply_ne _ hl]
    by_cases hl' : l = k'
    · subst hl'
      exact e'.own?_apply_congr (e.own?_apply_ne o hl)
    · rw [e'.own?_apply_ne _ hl', e'.own?_apply_ne _ hl', e.own?_apply_ne _ hl]

/-- The same is bound in either order. -/
theorem mem_bindings_apply_comm {b : Key × Property} :
    b ∈ (e'.apply k' (e.apply k o)).table.bindings →
      b ∈ (e.apply k (e'.apply k' o)).table.bindings := by
  simp only [mem_bindings_apply]
  rintro (⟨⟨hold, hkept⟩ | ⟨p, he, rfl⟩, hkept'⟩ | ⟨p', he', rfl⟩)
  · exact .inl ⟨.inl ⟨hold, hkept'⟩, hkept⟩
  · exact .inr ⟨p, he, rfl⟩
  · exact .inl ⟨.inr ⟨p', he', rfl⟩, fun hk' => absurd hk' (Ne.symm hk)⟩

theorem mem_references_apply_comm {a : Address}
    (ha : a ∈ (e'.apply k' (e.apply k o)).references) :
    a ∈ (e.apply k (e'.apply k' o)).references := by
  rw [Object.mem_references_iff] at ha ⊢
  refine ha.imp (fun ⟨b, hb, hab⟩ => ⟨b, mem_bindings_apply_comm e e' o hk hb, hab⟩) ?_
  rw [e'.apply_eq, e.apply_eq, e.apply_eq (e'.apply k' o), e'.apply_eq o]
  exact id

/-- The keys stand alike in either order, unless both are new. -/
theorem reorder_comm (ks : List Key) :
    e'.reorder k' (e.reorder k ks) = e.reorder k (e'.reorder k' ks) ∨
      (k ∉ ks ∧ k' ∉ ks ∧ e'.reorder k' (e.reorder k ks) = ks ++ [k, k'] ∧
        e.reorder k (e'.reorder k' ks) = ks ++ [k', k]) := by
  cases e with
  | keep => exact .inl rfl
  | write p =>
    cases e' with
    | keep => exact .inl rfl
    | write p' =>
      by_cases hmem : k ∈ ks <;> by_cases hmem' : k' ∈ ks <;>
        simp [reorder, hmem, hmem', hk, Ne.symm hk]
    | erase =>
      left
      by_cases hmem : k ∈ ks <;> simp [reorder, hmem, hk, List.filter_append]
  | erase =>
    cases e' with
    | keep => exact .inl rfl
    | write p' =>
      left
      by_cases hmem' : k' ∈ ks <;> simp [reorder, hmem', Ne.symm hk, List.filter_append]
    | erase =>
      left
      simp only [reorder, List.filter_filter, Bool.and_comm]

/-- What is listed is the same in either order, unless both keys are new names; these come
last, in the order of the edits. -/
theorem keys_apply_comm :
    (e'.apply k' (e.apply k o)).keys = (e.apply k (e'.apply k' o)).keys ∨
      (o.hasOwn k = false ∧ o.hasOwn k' = false ∧ k.isName = true ∧ k'.isName = true ∧
        ∃ front, (e'.apply k' (e.apply k o)).keys = front ++ [k, k'] ∧
          (e.apply k (e'.apply k' o)).keys = front ++ [k', k]) := by
  have hkeys : (e'.apply k' (e.apply k o)).table.keys =
      e'.reorder k' (e.reorder k o.table.keys) := by rw [keys_apply, keys_apply]
  have hkeys' : (e.apply k (e'.apply k' o)).table.keys =
      e.reorder k (e'.reorder k' o.table.keys) := by rw [keys_apply, keys_apply]
  rcases reorder_comm e e' hk o.table.keys with hsame | ⟨hnew, hnew', hlast, hlast'⟩
  · exact .inl (PropertyTable.orderedKeys_congr (hkeys.trans (hsame.trans hkeys'.symm)))
  · rcases PropertyTable.orderedKeys_swap (hkeys.trans hlast) (hkeys'.trans hlast')
      with hsame | ⟨hname, hname', hfront⟩
    · exact .inl hsame.symm
    · rw [← PropertyTable.contains_iff_mem_keys, Bool.not_eq_true] at hnew hnew'
      exact .inr ⟨hnew, hnew', hname, hname', hfront⟩

end Edit
end ScriptModel
