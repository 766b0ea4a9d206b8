import ScriptModel.Proofs.Heap.Update
import ScriptModel.Proofs.Machine.Move

/-!
# Locks hold

A property that is not configurable is locked. A lock covers the kind, the shared flags, the
functions of an accessor, and the value of a data property that is not writable; being
writable can be given up and never comes back. No operation with any fragment or flag opens
a lock, so a locked property stays what it is over every run.
-/

namespace ScriptModel

/-! ## One property -/

namespace Property

/-- It holds a value that can be assigned. -/
def isWritable : Property → Bool
  | data d => d.writable
  | accessor _ => false

/-- What a lock on the first property leaves room for: the second is what stands in its
place later. -/
def Keeps : Property → Property → Prop
  | data d, data e =>
    e.configurable = false ∧ e.enumerable = d.enumerable ∧
      (d.writable = false → e.writable = false ∧ e.value = d.value)
  | accessor a, accessor b =>
    b.configurable = false ∧ b.enumerable = a.enumerable ∧
      b.getter = a.getter ∧ b.setter = a.setter
  | _, _ => False

theorem Keeps.refl {p : Property} (hp : p.configurable = false) : p.Keeps p := by
  cases p with
  | data d => exact ⟨hp, rfl, fun hw => ⟨hw, rfl⟩⟩
  | accessor a => exact ⟨hp, rfl, rfl, rfl⟩

theorem Keeps.configurable {p q : Property} (h : p.Keeps q) : q.configurable = false := by
  cases p <;> cases q <;> first | exact h.1 | exact h.elim

theorem Keeps.trans {p q r : Property} (hpq : p.Keeps q) (hqr : q.Keeps r) : p.Keeps r := by
  cases p with
  | data d =>
    cases q with
    | accessor b => exact hpq.elim
    | data e =>
      cases r with
      | accessor c => exact hqr.elim
      | data g =>
        obtain ⟨_, he, hv⟩ := hpq
        obtain ⟨hc, he', hv'⟩ := hqr
        refine ⟨hc, he'.trans he, fun hw => ?_⟩
        obtain ⟨hw', hve⟩ := hv hw
        obtain ⟨hw'', hvg⟩ := hv' hw'
        exact ⟨hw'', hvg.trans hve⟩
  | accessor a =>
    cases q with
    | data e => exact hpq.elim
    | accessor b =>
      cases r with
      | data g => exact hqr.elim
      | accessor c =>
        obtain ⟨_, he, hg, hs⟩ := hpq
        obtain ⟨hc, he', hg', hs'⟩ := hqr
        exact ⟨hc, he'.trans he, hg'.trans hg, hs'.trans hs⟩

end Property

/-! ## One definition -/

namespace Fragment

variable {α : Type}

theorem agrees_iff {eq : α → α → Bool} {field : Option α} {current : α} :
    agrees eq field current = true ↔ ∀ x, field = some x → eq x current = true := by
  cases field with
  | none => simp [agrees]
  | some x => simp [agrees]

/-- A flag that is not asked to become true agrees with one that is false. -/
theorem agrees_of_ne_true {field : Option Bool} {current : Bool}
    (hf : (field != some true) = true)
    (hc : current = false) : agrees (· == ·) field current = true := by
  subst hc
  match field with
  | none => rfl
  | some false => rfl
  | some true => cases hf

/-- Only a writable data property has anything under its lock that a permitted fragment can
change. -/
theorem isWithin_of_permittedBy {f : Fragment} {p : Property} (hp : f.permittedBy p = true)
    (hl : p.configurable = false) (hw : p.isWritable = false) : f.isWithin p = true := by
  simp only [permittedBy, Bool.and_eq_true] at hp
  obtain ⟨⟨hc, he⟩, hk⟩ := hp
  have hc' := agrees_of_ne_true hc hl
  simp only [isWithin, he, hc', Bool.true_and]
  rw [Bool.or_eq_true] at hk ⊢
  refine hk.imp_right fun hk => ?_
  -- The rest concerns the fields of one kind, and a fragment of the other kind is not
  -- permitted.
  cases p with
  | data d =>
    change d.writable = false at hw
    cases hfk : f.kind with
    | accessor => simp [hfk] at hk
    | data =>
      simp only [hfk, hw, Bool.false_or, Bool.and_eq_true] at hk
      simp only [hk.2, agrees_of_ne_true hk.1 hw, Bool.and_self]
  | accessor a =>
    cases hfk : f.kind with
    | data => simp [hfk] at hk
    | accessor =>
      simp only [hfk, Bool.and_eq_true] at hk
      simp only [hk.1, hk.2, Bool.and_self]

/-- What a permitted fragment writes onto a writable data property under a lock. -/
theorem write_keeps {f : Fragment} {d : DataProperty}
    (hp : f.permittedBy (.data d) = true) (hl : d.configurable = false)
    (hw : d.writable = true) : (Property.data d).Keeps (f.write (.data d)) := by
  have he := f.enumerable_write (.data d)
  have hc := f.configurable_write (.data d)
  have hk := f.kind_write (.data d)
  simp only [permittedBy, Bool.and_eq_true] at hp
  obtain ⟨⟨hfc, hfe⟩, _⟩ := hp
  cases hq : f.write (.data d) with
  | accessor a =>
    rw [hq] at hk
    cases hk
  | data e =>
    rw [hq] at he hc
    refine ⟨?_, ?_, fun hn => ?_⟩
    · change e.configurable = f.configurable.getD d.configurable at hc
      rw [hc, hl]
      match hfc' : f.configurable with
      | none => rfl
      | some false => rfl
      | some true =>
        rw [hfc'] at hfc
        cases hfc
    · change e.enumerable = f.enumerable.getD d.enumerable at he
      rw [he]
      cases hfe' : f.enumerable with
      | none => rfl
      | some b => exact eq_of_beq (agrees_iff.mp hfe b hfe')
    · rw [hw] at hn
      cases hn

end Fragment

namespace Object

/-- A definition on a locked property writes nothing, or what the lock leaves room for. -/
theorem merge_keeps {o : Object} {k : Key} {f : Fragment} {overrides : Bool}
    {p q : Property} (hk : o.own? k = some p) (hl : p.configurable = false)
    (hm : o.merge k f overrides = .ok (some q)) : p.Keeps q := by
  simp only [merge, hk, hl, Bool.false_or] at hm
  split at hm
  · cases hm
  · rename_i hn
    split at hm
    · rename_i hp
      cases hm
      cases p with
      | accessor a => exact absurd (Fragment.isWithin_of_permittedBy hp hl rfl) hn
      | data d =>
        cases hw : d.writable with
        | false => exact absurd (Fragment.isWithin_of_permittedBy hp hl hw) hn
        | true =>
          have hb : f.base (.data d) = .data d := by
            have hp' := hp
            simp only [Fragment.permittedBy, Bool.and_eq_true, Bool.or_eq_true] at hp'
            unfold Fragment.base
            rcases hp'.2 with hg | hg
            · simp [hg]
            · cases hfk : f.kind with
              | data => simp [Property.kind]
              | accessor => simp [hfk] at hg
          rw [hb]
          exact Fragment.write_keeps hp hl hw
    · cases hm

theorem define_keeps {o obj : Object} {k l : Key} {f : Fragment} {overrides : Bool}
    {p : Property} (hd : o.define k f overrides = .ok obj) (hp : o.own? l = some p)
    (hl : p.configurable = false) : ∃ q, obj.own? l = some q ∧ p.Keeps q := by
  by_cases hlk : l = k
  · subst hlk
    rcases define_eq_ok hd with ⟨_, rfl⟩ | ⟨q, hm, rfl⟩
    · exact ⟨p, hp, .refl hl⟩
    · exact ⟨q, own?_withProperty_self o l q, merge_keeps hp hl hm⟩
  · exact ⟨p, (own?_of_define_ne hd hlk).trans hp, .refl hl⟩

/-- A deletion takes no locked property. -/
theorem delete_keeps {o obj : Object} {k l : Key} {p : Property} (hd : o.delete k = .ok obj)
    (hp : o.own? l = some p) (hl : p.configurable = false) : obj.own? l = some p := by
  by_cases hlk : l = k
  · subst hlk
    simp [delete, hp, hl] at hd
  · exact (own?_of_delete_ne hd hlk).trans hp

end Object

/-! ## All objects -/

namespace Heap

/-- Every locked property of the first heap is there in the second, under its lock. -/
def KeepsLocks (h h' : Heap) : Prop :=
  ∀ (o : Address) (k : Key) (p : Property), (h.get o).own? k = some p →
    p.configurable = false →
    ∃ q, (h'.get o).own? k = some q ∧ p.Keeps q

theorem KeepsLocks.refl (h : Heap) : h.KeepsLocks h := fun _ _ p hp hl => ⟨p, hp, .refl hl⟩

theorem KeepsLocks.trans {h h' h'' : Heap} (h₁ : h.KeepsLocks h') (h₂ : h'.KeepsLocks h'') :
    h.KeepsLocks h'' := by
  intro o k p hp hl
  obtain ⟨q, hq, hpq⟩ := h₁ o k p hp hl
  obtain ⟨r, hr, hqr⟩ := h₂ o k q hq hpq.configurable
  exact ⟨r, hr, hpq.trans hqr⟩

/-- Where no table changes, every lock holds. -/
theorem KeepsLocks.of_tables {h h' : Heap} (ht : ∀ a, (h'.get a).table = (h.get a).table) :
    h.KeepsLocks h' := by
  intro o k p hp hl
  refine ⟨p, ?_, .refl hl⟩
  simpa only [Object.own?, ht o] using hp

theorem KeepsLocks.alloc (h : Heap) (o : Object) : h.KeepsLocks (h.alloc o) := by
  intro a k p hp hl
  refine ⟨p, ?_, .refl hl⟩
  rw [get_alloc, if_neg]
  · exact hp
  · rintro rfl
    rw [get_of_not_contains h.not_contains_next] at hp
    cases hp

/-- Changing one object keeps every lock when it keeps those of the object. -/
theorem KeepsLocks.set {h : Heap} {a : Address} {obj : Object}
    (ha : ∀ (k : Key) (p : Property), (h.get a).own? k = some p → p.configurable = false →
      ∃ q, obj.own? k = some q ∧ p.Keeps q) : h.KeepsLocks (h.set a obj) := by
  intro o k p hp hl
  rw [get_set]
  split
  · rename_i ho
    obtain ⟨rfl, _⟩ := ho
    exact ha k p hp hl
  · exact ⟨p, hp, .refl hl⟩

end Heap

/-! ## All runs -/

namespace Machine

/-- What an act does to properties: nothing, or it makes an object, or it changes those of
one object by a definition or by a deletion. -/
theorem Act.tables {s t : Machine} (h : Act s t) :
    (∀ a, (t.heap.get a).table = (s.heap.get a).table) ∨
    (∃ o, t.heap = s.heap.alloc o) ∨
    (∃ o k f overrides obj, (s.heap.get o).define k f overrides = .ok obj ∧
      t.heap = s.heap.set o obj) ∨
    ∃ o k obj, (s.heap.get o).delete k = .ok obj ∧ t.heap = s.heap.set o obj := by
  cases h with
  | note e he => exact .inl fun _ => rfl
  | aside names diagnostics => exact .inl fun _ => rfl
  | hold vs => exact .inl fun _ => rfl
  | sweep inHand =>
    refine .inl fun a => ?_
    simp only [Machine.sweep, Machine.withHeap, Heap.release_eq_unlink, Heap.get_unlink]
  | alloc o => exact .inr (.inl ⟨o, rfl⟩)
  | define hd => exact .inr (.inr (.inl ⟨_, _, _, _, _, hd, rfl⟩))
  | override hd => exact .inr (.inr (.inl ⟨_, _, _, _, _, hd, rfl⟩))
  | delete hd => exact .inr (.inr (.inr ⟨_, _, _, hd, rfl⟩))
  | preventExtensions o =>
    refine .inl fun a => ?_
    simp only [Machine.withHeap, Heap.get_modify]
    split <;> rfl
  | setPrototype hs =>
    refine .inl fun a => ?_
    rcases Heap.setPrototype_eq_some hs with ⟨rfl, _⟩ | ⟨rfl, _⟩
    · rfl
    · simp only [Machine.withHeap, Heap.get_relink]
      split <;> rfl

theorem Act.keepsLocks {s t : Machine} (h : Act s t) : s.heap.KeepsLocks t.heap := by
  rcases h.tables with ht | ⟨o, ht⟩ | ⟨o, k, f, overrides, obj, hd, ht⟩ | ⟨o, k, obj, hd, ht⟩
  · exact .of_tables ht
  · rw [ht]
    exact .alloc _ o
  · rw [ht]
    exact .set fun k p hp hl => Object.define_keeps hd hp hl
  · rw [ht]
    exact .set fun k p hp hl => ⟨p, Object.delete_keeps hd hp hl, .refl hl⟩

theorem Path.keepsLocks {s t : Machine} (h : Path s t) : s.heap.KeepsLocks t.heap :=
  h.heap .refl .trans Act.keepsLocks

/-- A locked property stays locked over every run: after whatever a body does in any
activation, and after every script, it is still there and is what its lock leaves room for.
This holds from every machine, so also from every moment of a run. -/
theorem locked_property_stays {s : Machine} {o : Address} {k : Key} {p : Property}
    (hp : (s.heap.get o).own? k = some p) (hl : p.configurable = false) :
    (∀ (n : Nat) (act : Activation) (steps : List Step), ∃ q,
      ((Step.runAll (dispatch n) act steps s).2.heap.get o).own? k = some q ∧ p.Keeps q) ∧
    (∀ (host : Nat) (steps : List Step), ∃ q,
      ((Script.run host s steps).2.heap.get o).own? k = some q ∧ p.Keeps q) := by
  constructor
  · intro n act steps
    exact (Run.runAll_path n act steps s).keepsLocks o k p hp hl
  · intro host steps
    exact (Script.run_path host s steps).keepsLocks o k p hp hl

/-- The `length` of Function.prototype is locked from the start. -/
theorem length_of_functionPrototype_stays :
    ((bare .standard).heap.get .functionPrototype).own? .length =
        some (Object.dataProperty (.ofInt 0) false false false) ∧
      (∀ (n : Nat) (act : Activation) (steps : List Step), ∃ q,
        ((Step.runAll (dispatch n) act steps (bare .standard)).2.heap.get
          .functionPrototype).own? .length = some q ∧
        (Object.dataProperty (.ofInt 0) false false false).Keeps q) ∧
      (∀ (host : Nat) (steps : List Step), ∃ q,
        ((Script.run host (bare .standard) steps).2.heap.get
          .functionPrototype).own? .length = some q ∧
        (Object.dataProperty (.ofInt 0) false false false).Keeps q) :=
  ⟨rfl, locked_property_stays rfl rfl⟩

end Machine
end ScriptModel
