import Mathlib.Data.List.Nodup
import Mathlib.Order.Basic
import ScriptModel.Property.Table

/-!
# The order of keys

The keys that a script sees are those in the list, each once: the indices in ascending order
and then the names, in the order of the list. The order of the list is by age: an operation
keeps the order of the keys that stay and puts a new one behind them, so the keys stand as
they were last created.
-/

namespace ScriptModel

namespace Key

def isName : Key → Bool
  | index _ => false
  | name _ => true

/-- The first key comes before the second in the list. -/
def Precedes (ks : List Key) (a b : Key) : Prop := [a, b].Sublist ks

variable {ks new : List Key} {a b : Key}

theorem Precedes.mem_left (h : Precedes ks a b) : a ∈ ks := h.subset (by simp)

/-- Only what is left out changes. -/
theorem precedes_filter {kept : Key → Bool} (ha : kept a = true) (hb : kept b = true) :
    Precedes (ks.filter kept) a b ↔ Precedes ks a b := by
  constructor
  · intro h
    exact h.trans List.filter_sublist
  · intro h
    have hfilter := h.filter kept
    rwa [List.filter_cons_of_pos ha, List.filter_cons_of_pos hb, List.filter_nil] at hfilter

/-- What comes behind does not matter to those before. -/
theorem precedes_append_of_not_mem (hb : b ∉ new) :
    Precedes (ks ++ new) a b ↔ Precedes ks a b := by
  constructor
  · intro h
    obtain ⟨front, back, hsplit, hfront, hback⟩ := List.sublist_append_iff.mp h
    cases back with
    | nil =>
      rw [List.append_nil] at hsplit
      rw [Precedes, hsplit]
      exact hfront
    | cons c back =>
      -- The last one of the two would be among those behind.
      have hlast : b ∈ c :: back := by
        have hget := congrArg List.getLast? hsplit
        rw [List.getLast?_append_of_ne_nil _ (List.cons_ne_nil c back)] at hget
        exact List.mem_of_getLast? hget.symm
      exact absurd (hback.subset hlast) hb
  · intro h
    exact h.trans (List.sublist_append_left ks new)

theorem precedes_append_of_mem (ha : a ∈ ks) (hb : b ∈ new) : Precedes (ks ++ new) a b :=
  (List.singleton_sublist.mpr ha).append (List.singleton_sublist.mpr hb)

theorem not_precedes_append (ha : a ∉ ks) (hb : b ∉ new) : ¬ Precedes (ks ++ new) a b := by
  intro h
  exact ha ((precedes_append_of_not_mem hb).mp h).mem_left

end Key

namespace PropertyTable

/-! ## What is listed -/

theorem map_index_filterMap (ks : List Key) :
    (ks.filterMap indexOf?).map Key.index = ks.filter fun k => !k.isName := by
  induction ks with
  | nil => rfl
  | cons k ks ih =>
    cases k with
    | index i => exact congrArg (List.cons (Key.index i)) ih
    | name s => exact ih

theorem map_name_filterMap (ks : List Key) :
    (ks.filterMap nameOf?).map Key.name = ks.filter Key.isName := by
  induction ks with
  | nil => rfl
  | cons k ks ih =>
    cases k with
    | index i => exact ih
    | name s => exact congrArg (List.cons (Key.name s)) ih

theorem perm_orderedKeys (t : PropertyTable) : t.orderedKeys.Perm t.keys := by
  have hindices : (((t.keys.filterMap indexOf?).mergeSort fun i j => decide (i ≤ j)).map
      Key.index).Perm (t.keys.filter fun k => !k.isName) := by
    rw [← map_index_filterMap]
    exact (List.mergeSort_perm _ _).map _
  rw [orderedKeys, map_name_filterMap]
  exact (hindices.append_right _).trans
    (List.perm_append_comm.trans (List.filter_append_perm Key.isName t.keys))

/-- The indices that are listed are in strictly ascending order. -/
theorem pairwise_indices (t : PropertyTable) :
    ((t.keys.filterMap indexOf?).mergeSort fun i j => decide (i ≤ j)).Pairwise (· < ·) := by
  have hsorted : ((t.keys.filterMap indexOf?).mergeSort fun i j => decide (i ≤ j)).Pairwise
      fun i j => decide (i ≤ j) = true := by
    refine List.pairwise_mergeSort (fun i j k hij hjk => ?_) (fun i j => ?_) _
    · simp only [decide_eq_true_eq] at hij hjk ⊢
      exact UInt32.le_trans hij hjk
    · simpa using UInt32.le_total i j
  have hnodup : ((t.keys.filterMap indexOf?).mergeSort fun i j => decide (i ≤ j)).Nodup := by
    refine (List.mergeSort_perm _ _).nodup_iff.mpr (t.nodup.filterMap fun k l i hk hl => ?_)
    cases k <;> cases l <;> simp_all [indexOf?]
  refine (hsorted.and hnodup).imp fun {i j} h => ?_
  exact UInt32.lt_of_le_of_ne (of_decide_eq_true h.1) h.2

theorem filter_isName_orderedKeys (t : PropertyTable) :
    t.orderedKeys.filter Key.isName = t.keys.filter Key.isName := by
  have hindices : ∀ is : List UInt32, (is.map Key.index).filter Key.isName = [] := by
    intro is
    simp [Key.isName]
  rw [orderedKeys, map_name_filterMap, List.filter_append, hindices, List.nil_append,
    List.filter_filter]
  simp

/-- Where all keys are names, they are listed as they are. -/
theorem orderedKeys_of_names {t : PropertyTable} (h : ∀ k ∈ t.keys, k.isName = true) :
    t.orderedKeys = t.keys := by
  have hlisted : ∀ k ∈ t.orderedKeys, k.isName = true :=
    fun k hk => h k (t.perm_orderedKeys.mem_iff.mp hk)
  rw [← List.filter_eq_self.mpr hlisted, filter_isName_orderedKeys,
    List.filter_eq_self.mpr h]

/-- Names are listed in the order of the list. -/
theorem precedes_orderedKeys (t : PropertyTable) (a b : String) :
    Key.Precedes t.orderedKeys (.name a) (.name b) ↔
      Key.Precedes t.keys (.name a) (.name b) := by
  have ha : (Key.name a).isName = true := rfl
  have hb : (Key.name b).isName = true := rfl
  rw [← Key.precedes_filter ha hb, filter_isName_orderedKeys, Key.precedes_filter ha hb]

/-- A key is listed exactly when it is present. -/
theorem mem_orderedKeys_iff (t : PropertyTable) (k : Key) :
    k ∈ t.orderedKeys ↔ t.contains k = true := by
  rw [t.perm_orderedKeys.mem_iff, contains_iff_mem_keys]

theorem nodup_orderedKeys (t : PropertyTable) : t.orderedKeys.Nodup :=
  t.perm_orderedKeys.nodup_iff.mpr t.nodup

/-! ## One step -/

/-- What one operation makes of the list: nothing, one new key at the end, or one key
less. -/
inductive Reordered (ks : List Key) : List Key → Prop where
  | same : Reordered ks ks
  | added {k : Key} : k ∉ ks → Reordered ks (ks ++ [k])
  | struck {k : Key} : k ∈ ks → Reordered ks (ks.filter fun l => decide (l ≠ k))

theorem reordered_insert (t : PropertyTable) (k : Key) (p : Property) :
    Reordered t.keys (t.insert k p).keys := by
  by_cases hk : k ∈ t.keys
  · rw [keys_insert_of_mem t p hk]
    exact .same
  · rw [keys_insert_of_not_mem t p hk]
    exact .added hk

theorem keys_erase_of_not_mem (t : PropertyTable) {k : Key} (hk : k ∉ t.keys) :
    t.keys.filter (fun l => decide (l ≠ k)) = t.keys := by
  refine List.filter_eq_self.mpr fun l hl => decide_eq_true fun hlk => hk ?_
  rwa [← hlk]

theorem reordered_erase (t : PropertyTable) (k : Key) :
    Reordered t.keys (t.erase k).keys := by
  rw [keys_erase]
  by_cases hk : k ∈ t.keys
  · exact .struck hk
  · rw [keys_erase_of_not_mem t hk]
    exact .same

/-- The first list becomes the second in one step: what stays keeps its order, and what is
new comes behind it. -/
def Ages (ks ks' : List Key) : Prop :=
  ∃ new, ks' = ks.filter (fun k => decide (k ∈ ks')) ++ new ∧ ∀ k ∈ new, k ∉ ks

/-- The keys of a new object are all new. -/
theorem ages_nil (ks : List Key) : Ages [] ks := ⟨ks, rfl, by simp⟩

theorem Reordered.ages {ks ks' : List Key} (h : Reordered ks ks') : Ages ks ks' := by
  cases h with
  | same =>
    refine ⟨[], ?_, by simp⟩
    rw [List.append_nil, List.filter_eq_self.mpr fun k hk => decide_eq_true hk]
  | @added k hk =>
    refine ⟨[k], ?_, by simpa using hk⟩
    rw [List.filter_eq_self.mpr fun l hl => decide_eq_true (List.mem_append_left _ hl)]
  | @struck k _ =>
    refine ⟨[], ?_, by simp⟩
    rw [List.append_nil]
    refine List.filter_congr fun l hl => ?_
    simp [hl]

/-! ## Any number of steps -/

/-- At moment `i` the key came to stay: it is there from then on, up to moment `n`, and was
not there right before. What is there all the time counts as created at the start. -/
structure CreatedAt (ks : Nat → List Key) (n : Nat) (k : Key) (i : Nat) : Prop where
  le : i ≤ n
  since : ∀ j, i ≤ j → j ≤ n → k ∈ ks j
  before : ∀ j, j + 1 = i → k ∉ ks j

variable {ks : Nat → List Key} {n i j : Nat} {a b k : Key}

theorem createdAt_self (hk : k ∈ ks n) (hbefore : ∀ m, m + 1 = n → k ∉ ks m) :
    CreatedAt ks n k n :=
  ⟨Nat.le_refl n, fun _ hj hjn => Nat.le_antisymm hjn hj ▸ hk, hbefore⟩

theorem CreatedAt.later (h : CreatedAt ks n k i) (hk : k ∈ ks (n + 1)) :
    CreatedAt ks (n + 1) k i := by
  refine ⟨Nat.le_succ_of_le h.le, fun j hj hjn => ?_, h.before⟩
  by_cases hjn' : j = n + 1
  · rwa [hjn']
  · exact h.since j hj (by omega)

/-- A key that is there was created at some moment. -/
theorem exists_createdAt (hk : k ∈ ks n) : ∃ i, CreatedAt ks n k i := by
  induction n with
  | zero => exact ⟨0, createdAt_self hk fun m hm => by omega⟩
  | succ n ih =>
    by_cases hbefore : k ∈ ks n
    · obtain ⟨i, hi⟩ := ih hbefore
      exact ⟨i, hi.later hk⟩
    · refine ⟨n + 1, createdAt_self hk fun m hm => ?_⟩
      rwa [Nat.succ.inj hm]

/-- A key was created in the last step, or before it and has stayed. -/
theorem CreatedAt.succ_cases (h : CreatedAt ks (n + 1) k i) :
    (i = n + 1 ∧ k ∉ ks n) ∨ (i ≤ n ∧ k ∈ ks n ∧ CreatedAt ks n k i) := by
  by_cases hi : i = n + 1
  · exact .inl ⟨hi, h.before n hi.symm⟩
  · have hle : i ≤ n := by
      have := h.le
      omega
    exact .inr ⟨hle, h.since n hle (Nat.le_succ n), hle,
      fun j hj hjn => h.since j hj (Nat.le_succ_of_le hjn), h.before⟩

/-- Keys stand in the list in the order in which they were created; of those created at one
moment, in the order that they had then. -/
theorem precedes_iff (hages : ∀ m < n, Ages (ks m) (ks (m + 1))) (ha : CreatedAt ks n a i)
    (hb : CreatedAt ks n b j) :
    Key.Precedes (ks n) a b ↔ i < j ∨ i = j ∧ Key.Precedes (ks i) a b := by
  induction n with
  | zero =>
    obtain rfl : i = 0 := Nat.le_zero.mp ha.le
    obtain rfl : j = 0 := Nat.le_zero.mp hb.le
    simp
  | succ n ih =>
    have hamem : a ∈ ks (n + 1) := ha.since _ ha.le (Nat.le_refl _)
    have hbmem : b ∈ ks (n + 1) := hb.since _ hb.le (Nat.le_refl _)
    obtain ⟨new, hstep, hnew⟩ := hages n (Nat.lt_succ_self n)
    rcases ha.succ_cases with ⟨rfl, hanew⟩ | ⟨hi, hastay, ha'⟩
    · rcases hb.succ_cases with ⟨rfl, -⟩ | ⟨hj, hbstay, -⟩
      · simp
      · -- The newer one would have to stand before one that was there already.
        have hbold : b ∉ new := fun hmem => hnew b hmem hbstay
        have hnot : ¬ Key.Precedes (ks (n + 1)) a b := by
          rw [hstep]
          exact Key.not_precedes_append (fun hmem => hanew (List.mem_filter.mp hmem).1) hbold
        constructor
        · intro h
          exact absurd h hnot
        · intro h
          omega
    · have hfilter : a ∈ (ks n).filter fun k => decide (k ∈ ks (n + 1)) :=
        List.mem_filter.mpr ⟨hastay, decide_eq_true hamem⟩
      rcases hb.succ_cases with ⟨rfl, hbnew⟩ | ⟨hj, hbstay, hb'⟩
      · have hlast : b ∈ new := by
          rw [hstep] at hbmem
          exact (List.mem_append.mp hbmem).resolve_left fun h => hbnew (List.mem_filter.mp h).1
        have hprecedes : Key.Precedes (ks (n + 1)) a b := by
          rw [hstep]
          exact Key.precedes_append_of_mem hfilter hlast
        constructor
        · intro _
          exact .inl (Nat.lt_succ_of_le hi)
        · intro _
          exact hprecedes
      · have hbold : b ∉ new := fun hmem => hnew b hmem hbstay
        rw [← ih (fun m hm => hages m (Nat.lt_succ_of_lt hm)) ha' hb', hstep,
          Key.precedes_append_of_not_mem hbold,
          Key.precedes_filter (decide_eq_true (hstep ▸ hamem)) (decide_eq_true (hstep ▸ hbmem))]

end PropertyTable
end ScriptModel
