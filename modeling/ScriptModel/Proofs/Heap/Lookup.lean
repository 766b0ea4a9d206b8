import ScriptModel.Proofs.Heap.Above

/-!
# Look-ups

A look-up goes up from the object and finds the first property under the key (`Heap.Finds`).

A change of the heap under which no object gets another prototype or an accessor, and none
loses a property, lets no look-up meet an accessor that it did not meet before: the walk
goes the same way for as long as it goes, and whatever ends it earlier is no accessor.
Making objects, storing values and letting objects go are such changes.
-/

namespace ScriptModel

theorem Object.hasOwn_iff {o : Object} {k : Key} :
    o.hasOwn k = true ↔ ∃ p, o.own? k = some p :=
  Option.isSome_iff_exists

theorem Object.own?_eq_none_iff {o : Object} {k : Key} :
    o.own? k = none ↔ ¬ o.hasOwn k = true := by
  rw [hasOwn, PropertyTable.contains, Option.not_isSome_iff_eq_none]
  rfl

namespace Heap

/-- What a look-up finds is the property of the first holder. -/
theorem find?_eq_some_iff {h : Heap} {a b : Address} {k : Key} {p : Property} :
    h.find? a k = some (b, p) ↔ h.holder? a k = some b ∧ (h.get b).own? k = some p := by
  unfold find?
  constructor
  · intro hf
    obtain ⟨c, hc, hp⟩ := Option.bind_eq_some_iff.mp hf
    obtain ⟨q, hq, he⟩ := Option.map_eq_some_iff.mp hp
    cases he
    exact ⟨hc, hq⟩
  · rintro ⟨hb, hp⟩
    rw [hb, Option.bind_some, hp]
    rfl

/-! ## What a look-up finds -/

/-- The object at the start, or the first one above it that has the key, has the property:
each before it has no property of its own under the key, and the next one as its
prototype. -/
inductive Finds (h : Heap) (k : Key) : Address → Address → Property → Prop where
  | own {a : Address} {p : Property} : (h.get a).own? k = some p → Finds h k a a p
  | above {a b c : Address} {p : Property} : (h.get a).own? k = none →
    (h.get a).proto = some c → Finds h k c b p → Finds h k a b p

section Finds

variable {h : Heap} {k : Key} {a b : Address} {p : Property}

theorem Finds.own? (hf : h.Finds k a b p) : (h.get b).own? k = some p := by
  induction hf with
  | own hp => exact hp
  | above _ _ _ ih => exact ih

theorem Finds.ne_of_own (hf : h.Finds k a b p) (hnone : (h.get a).own? k = none) :
    b ≠ a := by
  intro hba
  have hp := hf.own?
  rw [hba, hnone] at hp
  cases hp

/-- A walk that is long enough comes to what is found. -/
theorem Finds.walk (hf : h.Finds k a b p) : ∃ m, ∀ n, m < n →
    h.walk (fun c => (h.get c).hasOwn k) n (some a) = some (some b) := by
  induction hf with
  | own hp =>
    refine ⟨0, fun n hn => ?_⟩
    cases n with
    | zero => omega
    | succ n => rw [Heap.walk, if_pos (Object.hasOwn_iff.mpr ⟨_, hp⟩)]
  | above hnone hproto _ ih =>
    obtain ⟨m, hm⟩ := ih
    refine ⟨m + 1, fun n hn => ?_⟩
    cases n with
    | zero => omega
    | succ n =>
      rw [Heap.walk, if_neg (Object.own?_eq_none_iff.mp hnone), hproto]
      exact hm n (by omega)

theorem finds_of_walk {n : Nat} (hp : (h.get b).own? k = some p)
    (hw : h.walk (fun c => (h.get c).hasOwn k) n (some a) = some (some b)) :
    h.Finds k a b p := by
  induction n generalizing a with
  | zero => cases hw
  | succ n ih =>
    rw [Heap.walk] at hw
    split at hw
    · cases hw
      exact .own hp
    · rename_i hown
      have hnone : (h.get a).own? k = none := Object.own?_eq_none_iff.mpr hown
      cases hproto : (h.get a).proto with
      | none =>
        rw [hproto] at hw
        cases n <;> cases hw
      | some c =>
        rw [hproto] at hw
        exact .above hnone hproto (ih hw)

/-- Where no chain has a cycle, a look-up goes along the whole chain. -/
theorem Acyclic.find?_iff (hh : h.Acyclic) :
    h.find? a k = some (b, p) ↔ h.Finds k a b p := by
  constructor
  · intro hf
    obtain ⟨hholder, hp⟩ := find?_eq_some_iff.mp hf
    have hw := hh.walk_holder k (Nat.lt_succ_self h.size) a
    rw [hholder] at hw
    exact finds_of_walk hp hw
  · intro hf
    obtain ⟨m, hm⟩ := hf.walk
    have hw := hm (m + h.size + 1) (by omega)
    rw [hh.walk_holder k (by omega) a] at hw
    exact find?_eq_some_iff.mpr ⟨Option.some.inj hw, hf.own?⟩

end Finds

/-! ## Narrowing -/

/-- No object of the first heap has in the second another prototype or an accessor that it
had not, and none has lost a property. -/
structure Narrows (h h' : Heap) : Prop where
  contains : ∀ a, h.contains a = true → h'.contains a = true
  proto : ∀ a, h.contains a = true → ∀ p, (h'.get a).proto = some p →
    (h.get a).proto = some p
  hasOwn : ∀ a, h.contains a = true → ∀ k, (h.get a).hasOwn k = true →
    (h'.get a).hasOwn k = true
  accessor : ∀ a, h.contains a = true → ∀ k g,
    (h'.get a).own? k = some (.accessor g) → (h.get a).own? k = some (.accessor g)

namespace Narrows

variable {h h' h'' : Heap}

theorem trans (hn : h.Narrows h') (hn' : h'.Narrows h'') : h.Narrows h'' where
  contains a ha := hn'.contains a (hn.contains a ha)
  proto a ha p hp := hn.proto a ha p (hn'.proto a (hn.contains a ha) p hp)
  hasOwn a ha k hk := hn'.hasOwn a (hn.contains a ha) k (hn.hasOwn a ha k hk)
  accessor a ha k g hg := hn.accessor a ha k g (hn'.accessor a (hn.contains a ha) k g hg)

theorem alloc (h : Heap) (o : Object) : h.Narrows (h.alloc o) where
  contains _ ha := contains_alloc o ha
  proto a ha p hp := by rwa [get_alloc_of_contains o ha] at hp
  hasOwn a ha k hk := by rwa [get_alloc_of_contains o ha]
  accessor a ha k g hg := by rwa [get_alloc_of_contains o ha] at hg

theorem release (h : Heap) (roots : List Address) : h.Narrows (h.release roots) := by
  rw [release_eq_unlink]
  refine ⟨fun a ha => ?_, fun a _ p hp => ?_, fun a _ k hk => ?_, fun a _ k g hg => ?_⟩
  · rw [Heap.contains, size_unlink]
    exact ha
  · rw [get_unlink] at hp
    exact (Option.filter_eq_some_iff.mp hp).1
  · rwa [get_unlink]
  · rwa [get_unlink] at hg

/-- A data property may be written. -/
theorem set {a : Address} {k : Key} {obj : Object} {d : DataProperty}
    (hk : obj.own? k = some (.data d))
    (hothers : ∀ l, l ≠ k → obj.own? l = (h.get a).own? l)
    (hproto : obj.proto = (h.get a).proto) : h.Narrows (h.set a obj) := by
  have hkeys : ∀ l, (h.get a).hasOwn l = true → obj.hasOwn l = true := by
    intro l hl
    by_cases hlk : l = k
    · exact Object.hasOwn_iff.mpr ⟨_, hlk ▸ hk⟩
    · obtain ⟨p, hp⟩ := Object.hasOwn_iff.mp hl
      exact Object.hasOwn_iff.mpr ⟨p, (hothers l hlk).trans hp⟩
  have haccessors : ∀ l g, obj.own? l = some (.accessor g) →
      (h.get a).own? l = some (.accessor g) := by
    intro l g hg
    by_cases hlk : l = k
    · rw [hlk, hk] at hg
      cases hg
    · rwa [hothers l hlk] at hg
  refine ⟨fun b hb => (contains_modify h a b _).trans hb, fun b _ p hp => ?_,
    fun b _ l hl => ?_, fun b _ l g hg => ?_⟩
  · rw [get_set] at hp
    split at hp
    · rename_i hba
      rwa [hba.1, ← hproto]
    · exact hp
  · rw [get_set]
    split
    · rename_i hba
      exact hkeys l (hba.1 ▸ hl)
    · exact hl
  · rw [get_set] at hg
    split at hg
    · rename_i hba
      rw [hba.1]
      exact haccessors l g hg
    · exact hg

/-- A walk that comes to an accessor came to it before. -/
theorem walk (hn : h.Narrows h') (hh : h.Acyclic) {k : Key} {b : Address}
    {g : AccessorProperty}
    (hg : (h'.get b).own? k = some (.accessor g)) {n : Nat} {a : Address}
    (ha : h.contains a = true)
    (hw : h'.walk (fun c => (h'.get c).hasOwn k) n (some a) = some (some b)) :
    h.walk (fun c => (h.get c).hasOwn k) n (some a) = some (some b) ∧
      h.contains b = true := by
  induction n generalizing a with
  | zero => cases hw
  | succ n ih =>
    rw [Heap.walk] at hw ⊢
    cases hown : (h'.get a).hasOwn k with
    | true =>
      rw [hown, if_pos rfl] at hw
      cases hw
      have hbefore := Object.hasOwn_iff.mpr ⟨_, hn.accessor b ha k g hg⟩
      exact ⟨by rw [if_pos hbefore], ha⟩
    | false =>
      -- What the object does not have now it had not before, so that the walk went on.
      have hbefore : (h.get a).hasOwn k = false := by
        cases hb : (h.get a).hasOwn k with
        | false => rfl
        | true =>
          rw [hn.hasOwn a ha k hb] at hown
          cases hown
      rw [hown, if_neg Bool.false_ne_true] at hw
      rw [hbefore, if_neg Bool.false_ne_true]
      cases hp : (h'.get a).proto with
      | none =>
        rw [hp] at hw
        cases n <;> cases hw
      | some p =>
        have hlink := hn.proto a ha p hp
        rw [hp] at hw
        rw [hlink]
        exact ih (hh.linked a p hlink) hw

/-- A look-up meets no accessor that it did not meet before. -/
theorem find?_accessor (hn : h.Narrows h') (hh : h.Acyclic) (hh' : h'.Acyclic)
    {a b : Address} (ha : h.contains a = true) {k : Key} {g : AccessorProperty}
    (hf : h'.find? a k = some (b, .accessor g)) : h.find? a k = some (b, .accessor g) := by
  obtain ⟨hholder, hown⟩ := find?_eq_some_iff.mp hf
  let n := h.size + h'.size + 1
  have hw := hh'.walk_holder k (show h'.size < n by omega) a
  rw [hholder] at hw
  obtain ⟨hwalk, hb⟩ := hn.walk hh hown ha hw
  rw [hh.walk_holder k (show h.size < n by omega) a] at hwalk
  exact find?_eq_some_iff.mpr ⟨Option.some.inj hwalk, hn.accessor b hb k g hown⟩

end Narrows
end Heap
end ScriptModel
