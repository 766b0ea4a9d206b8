import Mathlib.Algebra.Group.Nat.Defs
import ScriptModel.Object.Array

/-!
# What an array lists

An array has its length and its elements as data properties of its own, so whoever reads it
finds the values that it was made of, and nothing that is further up the chain. It keeps
alive no more than these values.
-/

namespace ScriptModel

namespace Key

/-- Different numbers are different indices. -/
theorem index_ofNat_inj {m n : Nat} (hm : m < 2 ^ 32) (hn : n < 2 ^ 32) :
    index (UInt32.ofNat m) = index (UInt32.ofNat n) ↔ m = n := by
  rw [index.injEq]
  refine ⟨fun h => ?_, fun h => h ▸ rfl⟩
  have htoNat := congrArg UInt32.toNat h
  simp only [UInt32.toNat_ofNat'] at htoNat
  rwa [Nat.mod_eq_of_lt hm, Nat.mod_eq_of_lt hn] at htoNat

end Key

namespace Object

/-- The object has the values as its own elements and their number as its own `length`. -/
structure Lists (o : Object) (vs : List Value) : Prop where
  length : ∃ d, o.own? .length = some (.data d) ∧ d.value = .ofInt vs.length
  element : ∀ (m : Nat) (hm : m < vs.length),
    ∃ d, o.own? (.index (UInt32.ofNat m)) = some (.data d) ∧ d.value = vs[m]

/-- What an object lists is a matter of its own properties. -/
theorem Lists.of_own? {o o' : Object} {vs : List Value} (h : o.Lists vs)
    (hown : ∀ k, o'.own? k = o.own? k) : o'.Lists vs where
  length := (hown _).symm ▸ h.length
  element m hm := (hown _).symm ▸ h.element m hm

/-! ## Own properties -/

theorem own?_withElements_ne {k : Key} {vs : List Value} {i : Nat} (o : Object)
    (hk : ∀ m < vs.length, k ≠ .index (UInt32.ofNat (i + m))) :
    (o.withElements i vs).own? k = o.own? k := by
  induction vs generalizing o i with
  | nil => rfl
  | cons v vs ih =>
    have hhead : k ≠ .index (UInt32.ofNat i) := hk 0 (Nat.succ_pos _)
    have htail : ∀ m < vs.length, k ≠ .index (UInt32.ofNat (i + 1 + m)) := fun m hm => by
      rw [Nat.add_assoc, Nat.add_comm 1 m]
      exact hk (m + 1) (Nat.succ_lt_succ hm)
    simp only [withElements]
    rw [ih _ htail, own?_withProperty_ne _ _ hhead]

theorem own?_withElements {vs : List Value} {i m : Nat} (o : Object) (hm : m < vs.length)
    (hi : i + vs.length ≤ 2 ^ 32) :
    (o.withElements i vs).own? (.index (UInt32.ofNat (i + m))) =
      some (dataProperty vs[m] true true true) := by
  induction vs generalizing o i m with
  | nil => cases hm
  | cons v vs ih =>
    rw [List.length_cons] at hi
    simp only [withElements]
    cases m with
    | zero =>
      -- The elements behind have other indices, so they leave the first one.
      refine (own?_withElements_ne _ fun m hm heq => ?_).trans (own?_withProperty_self _ _ _)
      have hne := (Key.index_ofNat_inj (by omega) (by omega)).mp heq
      omega
    | succ m =>
      rw [show i + (m + 1) = i + 1 + m by omega]
      exact ih _ (Nat.lt_of_succ_lt_succ hm) (by omega)

/-- An array lists the values that it is made of. -/
theorem lists_array {vs : List Value} (hvs : vs.length < 2 ^ 32) : (array vs).Lists vs where
  length := ⟨_, own?_withProperty_self _ _ _, rfl⟩
  element m hm := by
    have hown :=
      own?_withElements (ofClass .array (some .objectPrototype)) (i := 0) hm (by omega)
    rw [Nat.zero_add] at hown
    refine ⟨_, (own?_withProperty_ne _ _ ?_).trans hown, rfl⟩
    exact Key.noConfusion

/-! ## What is kept alive -/

theorem mem_references_withProperty {o : Object} {k : Key} {p : Property} {a : Address}
    (ha : a ∈ (o.withProperty k p).references) : a ∈ p.references ∨ a ∈ o.references := by
  rcases List.mem_append.mp ha with hbindings | hcallable
  · obtain ⟨e, he, hae⟩ := List.mem_flatMap.mp hbindings
    rcases PropertyTable.mem_bindings_insert he with rfl | he
    · exact .inl hae
    · exact .inr (List.mem_append_left _ (List.mem_flatMap.mpr ⟨e, he, hae⟩))
  · exact .inr (List.mem_append_right _ hcallable)

theorem mem_references_withElements {vs : List Value} {i : Nat} {o : Object} {a : Address}
    (ha : a ∈ (o.withElements i vs).references) :
    a ∈ vs.filterMap Value.address? ∨ a ∈ o.references := by
  induction vs generalizing o i with
  | nil => exact .inr ha
  | cons v vs ih =>
    rcases ih ha with htail | hrest
    · obtain ⟨w, hw, hwa⟩ := List.mem_filterMap.mp htail
      exact .inl (List.mem_filterMap.mpr ⟨w, List.mem_cons_of_mem v hw, hwa⟩)
    · refine (mem_references_withProperty hrest).imp_left fun hv => ?_
      have hva : v.address? = some a := Option.mem_toList.mp hv
      exact List.mem_filterMap.mpr ⟨v, List.mem_cons_self, hva⟩

/-- An array keeps alive what it was made of. -/
theorem mem_references_array {vs : List Value} {a : Address}
    (ha : a ∈ (array vs).references) : a ∈ vs.filterMap Value.address? := by
  rcases mem_references_withProperty ha with hlength | helements
  · cases hlength
  · exact (mem_references_withElements helements).elim id fun hnone => nomatch hnone

end Object
end ScriptModel
