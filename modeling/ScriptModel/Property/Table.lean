import ScriptModel.Property.Basic
import ScriptModel.Property.Key

/-!
# Property tables

The own properties of an object: a map from keys to properties, and beside it the list of
the keys in the order in which they came (`insertion_order`). Each operation changes the two
one by one. That the list has exactly the keys of the map, each once, is part of what a
table is, so an operation is defined together with the reason why it leaves this true.
Writing to a key that is present keeps its place; a key that was erased and comes back goes
to the end.
-/

namespace ScriptModel

namespace PropertyTable

/-! ## The map -/

/-- What a map has under a key. -/
def find : List (Key × Property) → Key → Option Property
  | [], _ => none
  | e :: es, k => if e.1 = k then some e.2 else find es k

/-- The map without the key. -/
def unbind (es : List (Key × Property)) (k : Key) : List (Key × Property) :=
  es.filter fun e => decide (e.1 ≠ k)

/-- The map with the property under the key, whatever was there. -/
def rebind (es : List (Key × Property)) (k : Key) (p : Property) : List (Key × Property) :=
  (k, p) :: unbind es k

theorem find_unbind_self (es : List (Key × Property)) (k : Key) :
    find (unbind es k) k = none := by
  induction es with
  | nil => rfl
  | cons e es ih =>
    by_cases h : e.1 = k
    · simpa [unbind, h] using ih
    · simpa [unbind, find, h] using ih

theorem find_unbind_ne (es : List (Key × Property)) {k l : Key} (h : l ≠ k) :
    find (unbind es k) l = find es l := by
  induction es with
  | nil => rfl
  | cons e es ih =>
    by_cases hk : e.1 = k
    · simpa [unbind, find, hk, Ne.symm h] using ih
    · by_cases hl : e.1 = l
      · simp [unbind, find, hl, h]
      · simpa [unbind, find, hk, hl] using ih

theorem find_rebind_self (es : List (Key × Property)) (k : Key) (p : Property) :
    find (rebind es k p) k = some p := by
  simp [rebind, find]

theorem find_rebind_ne (es : List (Key × Property)) {k l : Key} (p : Property) (h : l ≠ k) :
    find (rebind es k p) l = find es l := by
  simp [rebind, find, Ne.symm h, find_unbind_ne es h]

end PropertyTable

/-- Properties by key, and the keys in order. -/
structure PropertyTable where
  bindings : List (Key × Property)
  /-- The keys, oldest first. -/
  keys : List Key
  nodup : keys.Nodup
  mem_keys_iff : ∀ k, k ∈ keys ↔ (PropertyTable.find bindings k).isSome = true

namespace PropertyTable

def empty : PropertyTable := ⟨[], [], List.nodup_nil, fun k => by simp [find]⟩

instance : Inhabited PropertyTable := ⟨empty⟩

def get? (t : PropertyTable) (k : Key) : Option Property := find t.bindings k

def contains (t : PropertyTable) (k : Key) : Bool := (t.get? k).isSome

/-- A key is present exactly when it is among the keys. -/
theorem contains_iff_mem_keys (t : PropertyTable) (k : Key) :
    t.contains k = true ↔ k ∈ t.keys :=
  (t.mem_keys_iff k).symm

/-! ## The list of the keys -/

/-- The keys with one more at the end, unless the map has it. -/
def enlist (t : PropertyTable) (k : Key) : List Key :=
  if t.contains k then t.keys else t.keys ++ [k]

/-- The keys without one. -/
def strike (t : PropertyTable) (k : Key) : List Key := t.keys.filter fun l => decide (l ≠ k)

theorem mem_enlist (t : PropertyTable) (k l : Key) :
    l ∈ t.enlist k ↔ l = k ∨ l ∈ t.keys := by
  unfold enlist
  split
  · rename_i hk
    have hmem := (t.contains_iff_mem_keys k).mp hk
    exact ⟨.inr, fun h => h.elim (fun he => he ▸ hmem) id⟩
  · simp [or_comm]

theorem mem_strike (t : PropertyTable) (k l : Key) :
    l ∈ t.strike k ↔ l ≠ k ∧ l ∈ t.keys := by
  simp [strike, and_comm]

theorem nodup_enlist (t : PropertyTable) (k : Key) : (t.enlist k).Nodup := by
  unfold enlist
  split
  · exact t.nodup
  · rename_i hk
    rw [List.nodup_append]
    refine ⟨t.nodup, List.pairwise_singleton _ k, fun a ha b hb hab => hk ?_⟩
    rw [contains_iff_mem_keys, ← List.mem_singleton.mp hb, ← hab]
    exact ha

theorem nodup_strike (t : PropertyTable) (k : Key) : (t.strike k).Nodup := t.nodup.filter _

/-! ## The operations -/

/-- The list has the keys of the map after a write to both. -/
theorem mem_enlist_iff (t : PropertyTable) (k : Key) (p : Property) (l : Key) :
    l ∈ t.enlist k ↔ (find (rebind t.bindings k p) l).isSome = true := by
  rw [mem_enlist, t.mem_keys_iff]
  by_cases h : l = k
  · simp [h, find_rebind_self]
  · simp [h, find_rebind_ne]

/-- The list has the keys of the map after an erasure from both. -/
theorem mem_strike_iff (t : PropertyTable) (k l : Key) :
    l ∈ t.strike k ↔ (find (unbind t.bindings k) l).isSome = true := by
  rw [mem_strike, t.mem_keys_iff]
  by_cases h : l = k
  · simp [h, find_unbind_self]
  · simp [h, find_unbind_ne]

def insert (t : PropertyTable) (k : Key) (p : Property) : PropertyTable :=
  ⟨rebind t.bindings k p, t.enlist k, t.nodup_enlist k, t.mem_enlist_iff k p⟩

def erase (t : PropertyTable) (k : Key) : PropertyTable :=
  ⟨unbind t.bindings k, t.strike k, t.nodup_strike k, t.mem_strike_iff k⟩

/-- The index of a key that is one. -/
def indexOf? : Key → Option UInt32
  | .index i => some i
  | .name _ => none

/-- The string of a key that is one. -/
def nameOf? : Key → Option String
  | .index _ => none
  | .name s => some s

/-- The keys as a script sees them (`own_property_keys`): the indices in ascending order,
then the names, oldest first. -/
def orderedKeys (t : PropertyTable) : List Key :=
  ((t.keys.filterMap indexOf?).mergeSort fun i j => decide (i ≤ j)).map Key.index ++
    (t.keys.filterMap nameOf?).map Key.name

/-! ## What the operations do to a look-up and to the order -/

@[simp] theorem get?_insert_self (t : PropertyTable) (k : Key) (p : Property) :
    (t.insert k p).get? k = some p := find_rebind_self t.bindings k p

theorem get?_insert_ne (t : PropertyTable) {k l : Key} (p : Property) (h : l ≠ k) :
    (t.insert k p).get? l = t.get? l := find_rebind_ne t.bindings p h

@[simp] theorem get?_erase_self (t : PropertyTable) (k : Key) : (t.erase k).get? k = none :=
  find_unbind_self t.bindings k

theorem get?_erase_ne (t : PropertyTable) {k l : Key} (h : l ≠ k) :
    (t.erase k).get? l = t.get? l := find_unbind_ne t.bindings h

/-- Writing to a key that is present keeps every place. -/
theorem keys_insert_of_mem (t : PropertyTable) {k : Key} (p : Property) (h : k ∈ t.keys) :
    (t.insert k p).keys = t.keys := if_pos ((t.contains_iff_mem_keys k).mpr h)

/-- A new key goes to the end. -/
theorem keys_insert_of_not_mem (t : PropertyTable) {k : Key} (p : Property)
    (h : k ∉ t.keys) : (t.insert k p).keys = t.keys ++ [k] :=
  if_neg fun hk => h ((t.contains_iff_mem_keys k).mp hk)

/-- Erasing takes out one key and keeps the order of the others. -/
theorem keys_erase (t : PropertyTable) (k : Key) :
    (t.erase k).keys = t.keys.filter fun l => decide (l ≠ k) := rfl

/-- What is bound after a write is what was written, or was bound before. -/
theorem mem_bindings_insert {t : PropertyTable} {k : Key} {p : Property}
    {e : Key × Property} (he : e ∈ (t.insert k p).bindings) : e = (k, p) ∨ e ∈ t.bindings :=
  (List.mem_cons.mp he).imp_right fun h => (List.mem_filter.mp h).1

end PropertyTable
end ScriptModel
