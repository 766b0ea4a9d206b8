import ScriptModel.Proofs.Heap.Lookup
import ScriptModel.Proofs.Machine.Assignment
import ScriptModel.Proofs.Machine.Lock

/-!
# Definitions

A definition decides by one rule: a key without a property needs an object that takes
properties, or an override, and a property that is there needs to be unlocked, or the
fragment to respect its lock. What is accepted is the property with the fields of the
fragment in the place of its own (`Fragment.merged`). The one thing not written is a value
that is there already: where all that the fragment names is as it wants it, the old property
stays, with a value that is the same.
-/

namespace ScriptModel

namespace Value

/-- Nothing is known to be the same as an undetermined value. -/
theorem unknown_same (w : Value) : unknown.same w = false := by
  cases w <;> rfl

end Value

/-! ## The merged property -/

namespace Property

/-- What a key without a property counts as. -/
def absent : Property := .blank .data false false

/-- The value that it holds; an accessor holds none. -/
def value : Property → Value
  | data d => d.value
  | accessor _ => .undefined

def getter : Property → Option Address
  | data _ => none
  | accessor a => a.getter

def setter : Property → Option Address
  | data _ => none
  | accessor a => a.setter

end Property

namespace Fragment

/-- The kind of the property once the fragment is merged into it: a generic fragment leaves
it. -/
def mergedKind (f : Fragment) (p : Property) : PropertyKind :=
  if f.isGeneric then p.kind else f.kind

/-- The property with every field that the fragment names, and with its own in the others.
What the property does not have, because it is of the other kind, counts as undefined, false
or none. -/
def merged (f : Fragment) (p : Property) : Property :=
  let enumerable := f.enumerable.getD p.enumerable
  let configurable := f.configurable.getD p.configurable
  match f.mergedKind p with
  | .data =>
    .data ⟨f.value.getD p.value, f.writable.getD p.isWritable, enumerable, configurable⟩
  | .accessor =>
    .accessor ⟨f.getter.getD p.getter, f.setter.getD p.setter, enumerable, configurable⟩

variable {f : Fragment} {p : Property}

@[simp] theorem kind_merged (f : Fragment) (p : Property) :
    (f.merged p).kind = f.mergedKind p := by
  unfold merged
  split <;> rename_i h <;> simp [h, Property.kind]

@[simp] theorem enumerable_merged (f : Fragment) (p : Property) :
    (f.merged p).enumerable = f.enumerable.getD p.enumerable := by
  unfold merged
  split <;> rfl

@[simp] theorem configurable_merged (f : Fragment) (p : Property) :
    (f.merged p).configurable = f.configurable.getD p.configurable := by
  unfold merged
  split <;> rfl

theorem merged_data (hk : f.mergedKind p = .data) : f.merged p =
    .data ⟨f.value.getD p.value, f.writable.getD p.isWritable, f.enumerable.getD p.enumerable,
      f.configurable.getD p.configurable⟩ := by
  simp [merged, hk]

theorem merged_accessor (hk : f.mergedKind p = .accessor) : f.merged p =
    .accessor ⟨f.getter.getD p.getter, f.setter.getD p.setter, f.enumerable.getD p.enumerable,
      f.configurable.getD p.configurable⟩ := by
  simp [merged, hk]

theorem isWritable_merged (hk : f.mergedKind p = .data) :
    (f.merged p).isWritable = f.writable.getD p.isWritable := by
  rw [merged_data hk]
  rfl

theorem getter_merged (hk : f.mergedKind p = .accessor) :
    (f.merged p).getter = f.getter.getD p.getter := by
  rw [merged_accessor hk]
  rfl

theorem setter_merged (hk : f.mergedKind p = .accessor) :
    (f.merged p).setter = f.setter.getD p.setter := by
  rw [merged_accessor hk]
  rfl

/-! What is written is merged. -/

theorem isGeneric_iff : f.isGeneric = true ↔
    f.value = none ∧ f.writable = none ∧ f.getter = none ∧ f.setter = none := by
  simp [isGeneric, and_assoc]

/-- A generic fragment writes the flags alone. -/
theorem write_of_isGeneric (hg : f.isGeneric = true) (p : Property) :
    f.write p = f.merged p := by
  obtain ⟨hv, hw, hget, hset⟩ := isGeneric_iff.mp hg
  cases p with
  | data d =>
    have hk : f.mergedKind (.data d) = .data := by simp [mergedKind, hg, Property.kind]
    rw [merged_data hk, hv, hw, write, writeFlags_data]
    cases hf : f.kind with
    | data => simp only [hv, hw]; rfl
    | accessor => rfl
  | accessor a =>
    have hk : f.mergedKind (.accessor a) = .accessor := by
      simp [mergedKind, hg, Property.kind]
    rw [merged_accessor hk, hget, hset, write, writeFlags_accessor]
    cases hf : f.kind with
    | data => rfl
    | accessor => simp only [hget, hset]; rfl

/-- A fragment for data is written onto the data property that the property counts as. -/
theorem base_data (hg : f.isGeneric = false) (hk : f.kind = .data) (p : Property) :
    f.base p = .data ⟨p.value, p.isWritable, p.enumerable, p.configurable⟩ := by
  cases p with
  | data d => simp [base, hk, Property.kind, Property.value, Property.isWritable,
      Property.enumerable, Property.configurable]
  | accessor a => simp [base, hg, hk, Property.kind, Property.value, Property.isWritable,
      Property.blank]

theorem base_accessor (hg : f.isGeneric = false) (hk : f.kind = .accessor) (p : Property) :
    f.base p = .accessor ⟨p.getter, p.setter, p.enumerable, p.configurable⟩ := by
  cases p with
  | data d =>
    simp [base, hg, hk, Property.kind, Property.getter, Property.setter, Property.blank]
  | accessor a => simp [base, hk, Property.kind, Property.getter, Property.setter,
      Property.enumerable, Property.configurable]

theorem write_accessor (hk : f.kind = .accessor) (a : AccessorProperty) :
    f.write (.accessor a) = .accessor ⟨f.getter.getD a.getter, f.setter.getD a.setter,
      f.enumerable.getD a.enumerable, f.configurable.getD a.configurable⟩ := by
  rw [write, writeFlags_accessor, hk]

/-- What is written over a property is merged into it. -/
theorem write_base (f : Fragment) (p : Property) : f.write (f.base p) = f.merged p := by
  cases hg : f.isGeneric with
  | true =>
    have hb : f.base p = p := by simp [base, hg]
    rw [hb, write_of_isGeneric hg]
  | false =>
    have hm : f.mergedKind p = f.kind := by simp [mergedKind, hg]
    cases hk : f.kind with
    | data => rw [base_data hg hk, write_data hk, merged_data (hm.trans hk)]
    | accessor => rw [base_accessor hg hk, write_accessor hk, merged_accessor (hm.trans hk)]

/-- What is made where nothing was is merged into nothing. -/
theorem create_eq (f : Fragment) : f.create = f.merged .absent := by
  have hbase : f.base .absent = .blank (if f.isGeneric then .data else f.kind) false false := by
    cases hg : f.isGeneric <;> cases hk : f.kind <;>
      simp [base, hg, hk, Property.absent, Property.kind, Property.blank,
        Property.enumerable, Property.configurable]
  rw [create, ← hbase, write_base]

/-! ## What is there already -/

/-- Merging changes nothing that a lock covers in any property: the kind, the flags and the
functions. -/
structure KeepsShape (f : Fragment) (p : Property) : Prop where
  kind : (f.merged p).kind = p.kind
  enumerable : (f.merged p).enumerable = p.enumerable
  configurable : (f.merged p).configurable = p.configurable
  getter : (f.merged p).getter = p.getter
  setter : (f.merged p).setter = p.setter

/-- What the fragment asks for is there already: the shape, whether it is writable, and the
value that is named is the same value. -/
structure Matches (f : Fragment) (p : Property) : Prop extends f.KeepsShape p where
  writable : (f.merged p).isWritable = p.isWritable
  value : p.kind = .data → ∀ v, f.value = some v → v.same p.value = true

theorem KeepsShape.mergedKind (h : f.KeepsShape p) : f.mergedKind p = p.kind :=
  (kind_merged f p).symm.trans h.kind

/-- A data property has no functions to keep. -/
theorem keepsShape_data {d : DataProperty} (hk : f.mergedKind (.data d) = .data) :
    f.KeepsShape (.data d) ↔ f.enumerable.getD d.enumerable = d.enumerable ∧
      f.configurable.getD d.configurable = d.configurable := by
  constructor
  · intro h
    exact ⟨(enumerable_merged ..).symm.trans h.enumerable,
      (configurable_merged ..).symm.trans h.configurable⟩
  · intro ⟨he, hc⟩
    exact ⟨(kind_merged ..).trans hk, (enumerable_merged ..).trans he,
      (configurable_merged ..).trans hc, by rw [merged_data hk]; rfl,
      by rw [merged_data hk]; rfl⟩

theorem keepsShape_accessor {a : AccessorProperty}
    (hk : f.mergedKind (.accessor a) = .accessor) :
    f.KeepsShape (.accessor a) ↔ f.enumerable.getD a.enumerable = a.enumerable ∧
      f.configurable.getD a.configurable = a.configurable ∧
      f.getter.getD a.getter = a.getter ∧ f.setter.getD a.setter = a.setter := by
  constructor
  · intro h
    exact ⟨(enumerable_merged ..).symm.trans h.enumerable,
      (configurable_merged ..).symm.trans h.configurable,
      (getter_merged hk).symm.trans h.getter, (setter_merged hk).symm.trans h.setter⟩
  · intro ⟨he, hc, hget, hset⟩
    exact ⟨(kind_merged ..).trans hk, (enumerable_merged ..).trans he,
      (configurable_merged ..).trans hc, (getter_merged hk).trans hget,
      (setter_merged hk).trans hset⟩

/-- A field that is named agrees exactly when writing it changes nothing. -/
theorem agrees_beq_iff {α : Type} [BEq α] [LawfulBEq α] {field : Option α} {current : α} :
    agrees (· == ·) field current = true ↔ field.getD current = current := by
  cases field <;> simp [agrees]

theorem ne_some_true_iff {field : Option Bool} :
    (field != some true) = true ↔ field.getD false = false := by
  cases field with
  | none => simp
  | some b => cases b <;> simp

/-- Where merging keeps the kind, the fragment is within a data property when its flags, its
value and its writability agree: a generic one names no other field. -/
theorem isWithin_data {d : DataProperty} (hk : f.mergedKind (.data d) = .data) :
    f.isWithin (.data d) =
      (agrees (· == ·) f.enumerable d.enumerable &&
        agrees (· == ·) f.configurable d.configurable &&
        (agrees Value.same f.value d.value && agrees (· == ·) f.writable d.writable)) := by
  cases hg : f.isGeneric with
  | true =>
    obtain ⟨hv, hw, -, -⟩ := isGeneric_iff.mp hg
    simp [isWithin, hg, hv, hw, agrees, Property.enumerable, Property.configurable]
  | false =>
    have hf : f.kind = .data := by simpa [mergedKind, hg] using hk
    simp [isWithin, hg, hf, Property.enumerable, Property.configurable]

theorem isWithin_accessor {a : AccessorProperty}
    (hk : f.mergedKind (.accessor a) = .accessor) : f.isWithin (.accessor a) =
      (agrees (· == ·) f.enumerable a.enumerable &&
        agrees (· == ·) f.configurable a.configurable &&
        (agrees (· == ·) f.getter a.getter && agrees (· == ·) f.setter a.setter)) := by
  cases hg : f.isGeneric with
  | true =>
    obtain ⟨-, -, hget, hset⟩ := isGeneric_iff.mp hg
    simp [isWithin, hg, hget, hset, agrees, Property.enumerable, Property.configurable]
  | false =>
    have hf : f.kind = .accessor := by simpa [mergedKind, hg] using hk
    simp [isWithin, hg, hf, Property.enumerable, Property.configurable]

/-- A fragment that would change the kind is specific and of the other kind. -/
theorem specific_of_mergedKind_ne (hk : f.mergedKind p ≠ p.kind) :
    f.isGeneric = false ∧ f.kind ≠ p.kind := by
  cases hg : f.isGeneric with
  | true => exact absurd (by simp [mergedKind, hg]) hk
  | false => exact ⟨rfl, by simpa [mergedKind, hg] using hk⟩

theorem isWithin_of_mergedKind_ne (hk : f.mergedKind p ≠ p.kind) :
    f.isWithin p = false := by
  obtain ⟨hg, hf⟩ := specific_of_mergedKind_ne hk
  cases p <;> cases hfk : f.kind <;> simp_all [isWithin, Property.kind]

/-- What a fragment is within is what it matches. -/
theorem isWithin_iff : f.isWithin p = true ↔ f.Matches p := by
  by_cases hk : f.mergedKind p = p.kind
  · cases p with
    | data d =>
      rw [isWithin_data hk]
      simp only [Bool.and_eq_true, agrees_beq_iff, @agrees_iff Value Value.same]
      constructor
      · intro ⟨hflags, hv, hw⟩
        exact ⟨(keepsShape_data hk).mpr hflags, (isWritable_merged hk).trans hw,
          fun _ => hv⟩
      · intro h
        exact ⟨(keepsShape_data hk).mp h.toKeepsShape, h.value rfl,
          (isWritable_merged hk).symm.trans h.writable⟩
    | accessor a =>
      rw [isWithin_accessor hk]
      simp only [Bool.and_eq_true, agrees_beq_iff]
      constructor
      · intro ⟨⟨he, hc⟩, hfunctions⟩
        exact ⟨(keepsShape_accessor hk).mpr ⟨he, hc, hfunctions⟩,
          by rw [merged_accessor hk]; rfl, fun hd => by cases hd⟩
      · intro h
        obtain ⟨he, hc, hfunctions⟩ := (keepsShape_accessor hk).mp h.toKeepsShape
        exact ⟨⟨he, hc⟩, hfunctions⟩
  · rw [isWithin_of_mergedKind_ne hk]
    constructor
    · intro h
      cases h
    · intro h
      exact absurd h.mergedKind hk

/-- A property that has all that the fragment names is the merged one, but for a value that
is the same. -/
theorem Matches.eq_or_same (h : f.Matches p) : p = f.merged p ∨
    ∃ d v, p = .data d ∧ f.merged p = .data { d with value := v } ∧
      v.same d.value = true := by
  have hk := h.mergedKind
  cases p with
  | data d =>
    obtain ⟨he, hc⟩ := (keepsShape_data hk).mp h.toKeepsShape
    have hw := (isWritable_merged hk).symm.trans h.writable
    have hmerged : f.merged (.data d) = .data { d with value := f.value.getD d.value } := by
      rw [merged_data hk, hw, Property.enumerable, Property.configurable, he, hc]
      rfl
    rw [hmerged]
    cases hv : f.value with
    | none => exact .inl rfl
    | some v => exact .inr ⟨d, v, rfl, rfl, h.value rfl v hv⟩
  | accessor a =>
    obtain ⟨he, hc, hget, hset⟩ := (keepsShape_accessor hk).mp h.toKeepsShape
    rw [merged_accessor hk, Property.enumerable, Property.configurable, Property.getter,
      Property.setter, he, hc, hget, hset]
    exact .inl rfl

theorem not_matches_unknown (hv : f.value = some .unknown) (hk : p.kind = .data) :
    ¬ f.Matches p := by
  intro h
  have hsame := h.value hk .unknown hv
  rw [Value.unknown_same] at hsame
  cases hsame

/-! ## What a lock permits -/

/-- What a lock lets the fragment ask for: the shape is there already, and so are the value
and not being writable where a property is not writable. An undetermined value is never the
same. -/
structure RespectsLock (f : Fragment) (p : Property) : Prop extends f.KeepsShape p where
  writable : p.isWritable = false → (f.merged p).isWritable = false
  value : p.kind = .data → p.isWritable = false → ∀ v, f.value = some v →
    v.same p.value = true

theorem Matches.respectsLock (h : f.Matches p) : f.RespectsLock p :=
  ⟨h.toKeepsShape, fun hw => h.writable.trans hw, fun hk _ => h.value hk⟩

theorem permittedBy_data {d : DataProperty} (hk : f.mergedKind (.data d) = .data) :
    f.permittedBy (.data d) =
      (f.configurable != some true && agrees (· == ·) f.enumerable d.enumerable &&
        (d.writable || (f.writable != some true && agrees Value.same f.value d.value))) := by
  cases hg : f.isGeneric with
  | true =>
    obtain ⟨hv, hw, -, -⟩ := isGeneric_iff.mp hg
    simp [permittedBy, hg, hv, hw, agrees, Property.enumerable]
  | false =>
    have hf : f.kind = .data := by simpa [mergedKind, hg] using hk
    simp [permittedBy, hg, hf, Property.enumerable]

theorem permittedBy_accessor {a : AccessorProperty}
    (hk : f.mergedKind (.accessor a) = .accessor) : f.permittedBy (.accessor a) =
      (f.configurable != some true && agrees (· == ·) f.enumerable a.enumerable &&
        (agrees (· == ·) f.setter a.setter && agrees (· == ·) f.getter a.getter)) := by
  cases hg : f.isGeneric with
  | true =>
    obtain ⟨-, -, hget, hset⟩ := isGeneric_iff.mp hg
    simp [permittedBy, hg, hget, hset, agrees, Property.enumerable]
  | false =>
    have hf : f.kind = .accessor := by simpa [mergedKind, hg] using hk
    simp [permittedBy, hg, hf, Property.enumerable]

theorem permittedBy_of_mergedKind_ne (hk : f.mergedKind p ≠ p.kind) :
    f.permittedBy p = false := by
  obtain ⟨hg, hf⟩ := specific_of_mergedKind_ne hk
  cases p <;> cases hfk : f.kind <;> simp_all [permittedBy, Property.kind]

theorem not_respectsLock_unknown (hv : f.value = some .unknown) (hk : p.kind = .data)
    (hw : p.isWritable = false) : ¬ f.RespectsLock p := by
  intro h
  have hsame := h.value hk hw .unknown hv
  rw [Value.unknown_same] at hsame
  cases hsame

/-- A lock permits the fragments that respect it. -/
theorem permittedBy_iff (hl : p.configurable = false) :
    f.permittedBy p = true ↔ f.RespectsLock p := by
  by_cases hk : f.mergedKind p = p.kind
  · cases p with
    | data d =>
      have hlocked : (f.configurable != some true) = true ↔
          f.configurable.getD d.configurable = d.configurable := by
        rw [show d.configurable = false from hl]
        exact ne_some_true_iff
      have hgiven : (f.merged (.data d)).isWritable = f.writable.getD d.writable :=
        isWritable_merged hk
      rw [permittedBy_data hk]
      simp only [Bool.and_eq_true, Bool.or_eq_true, agrees_beq_iff, hlocked,
        @agrees_iff Value Value.same]
      constructor
      · intro ⟨⟨hc, he⟩, hw⟩
        have hclosed : d.writable = false → _ := fun h => hw.resolve_left (by simp [h])
        refine ⟨(keepsShape_data hk).mpr ⟨he, hc⟩, fun h => ?_, fun _ h => (hclosed h).2⟩
        rw [hgiven, show d.writable = false from h]
        exact ne_some_true_iff.mp (hclosed h).1
      · intro h
        obtain ⟨he, hc⟩ := (keepsShape_data hk).mp h.toKeepsShape
        refine ⟨⟨hc, he⟩, ?_⟩
        cases hw : d.writable with
        | true => exact .inl rfl
        | false =>
          have hwritable := h.writable hw
          rw [hgiven, hw] at hwritable
          exact .inr ⟨ne_some_true_iff.mpr hwritable, h.value rfl hw⟩
    | accessor a =>
      have hlocked : (f.configurable != some true) = true ↔
          f.configurable.getD a.configurable = a.configurable := by
        rw [show a.configurable = false from hl]
        exact ne_some_true_iff
      rw [permittedBy_accessor hk]
      simp only [Bool.and_eq_true, agrees_beq_iff, hlocked]
      constructor
      · intro ⟨⟨hc, he⟩, hset, hget⟩
        exact ⟨(keepsShape_accessor hk).mpr ⟨he, hc, hget, hset⟩,
          fun _ => by rw [merged_accessor hk]; rfl, fun hd => by cases hd⟩
      · intro h
        obtain ⟨he, hc, hget, hset⟩ := (keepsShape_accessor hk).mp h.toKeepsShape
        exact ⟨⟨hc, he⟩, hset, hget⟩
  · rw [permittedBy_of_mergedKind_ne hk]
    constructor
    · intro h
      cases h
    · intro h
      exact absurd h.mergedKind hk

end Fragment

/-! ## One object -/

namespace Object

/-- The object takes the definition. An override only ever makes up for an object that takes
no properties. -/
def Admits (o : Object) (k : Key) (f : Fragment) (overrides : Bool) : Prop :=
  match o.own? k with
  | none => o.extensible = true ∨ overrides = true
  | some p => p.configurable = true ∨ f.RespectsLock p

/-- What the definition is to make of the key. -/
def merged (o : Object) (k : Key) (f : Fragment) : Property :=
  f.merged ((o.own? k).getD .absent)

/-- Why the object does not take a definition. -/
def refusal (o : Object) (k : Key) : Exception :=
  if o.hasOwn k then .cannotRedefine k else .cannotDefine k

theorem kind_refusal (o : Object) (k : Key) : (o.refusal k).kind = .typeError := by
  unfold refusal
  split <;> rfl

variable {o : Object} {k : Key} {f : Fragment} {overrides : Bool}

/-- A definition that is admitted writes the merged property, or nothing where all is there
already. -/
theorem define_of_admits (h : o.Admits k f overrides) :
    o.define k f overrides = .ok (o.withProperty k (o.merged k f)) ∨
      ∃ p, o.own? k = some p ∧ f.Matches p ∧ o.define k f overrides = .ok o := by
  unfold Admits at h
  cases hown : o.own? k with
  | none =>
    rw [hown] at h
    have hopen : (o.extensible || overrides) = true := by simpa using h
    left
    simp [define, merge, hown, hopen, merged, Fragment.create_eq]
  | some p =>
    rw [hown] at h
    by_cases hw : f.isWithin p = true
    · exact .inr ⟨p, rfl, Fragment.isWithin_iff.mp hw, define_of_isWithin hown hw⟩
    · have hpermitted : p.configurable = true ∨ f.permittedBy p = true := by
        cases hl : p.configurable with
        | true => exact .inl rfl
        | false =>
          exact .inr ((Fragment.permittedBy_iff hl).mpr (h.resolve_left (by simp [hl])))
      left
      simp [define, merge, hown, hw, hpermitted, merged, Fragment.write_base]

theorem define_of_not_admits (h : ¬ o.Admits k f overrides) :
    o.define k f overrides = .error (o.refusal k) := by
  unfold Admits at h
  cases hown : o.own? k with
  | none =>
    rw [hown] at h
    have hclosed : ¬ (o.extensible || overrides) = true := by simpa using h
    have hhas : ¬ o.hasOwn k = true := by simp [Object.hasOwn_iff, hown]
    simp [define, merge, hown, hclosed, refusal, hhas]
  | some p =>
    rw [hown] at h
    have hl : p.configurable = false := by simpa using fun hc => h (.inl hc)
    have hlock : ¬ f.RespectsLock p := fun hr => h (.inr hr)
    -- What is within the property respects its lock.
    have hw : ¬ f.isWithin p = true :=
      fun hw => hlock (Fragment.isWithin_iff.mp hw).respectsLock
    have hpermitted : ¬ f.permittedBy p = true := fun hp =>
      hlock ((Fragment.permittedBy_iff hl).mp hp)
    have hhas : o.hasOwn k = true := Object.hasOwn_iff.mpr ⟨p, hown⟩
    simp [define, merge, hown, hw, hl, hpermitted, refusal, hhas]

end Object

/-! ## All objects -/

namespace Machine

/-- The machine once an override, where one is asked for, has been noted. -/
def noting (s : Machine) (o : Address) (overrides : Bool) : Machine :=
  if overrides then s.note (.overrode o) else s

@[simp] theorem heap_noting (s : Machine) (o : Address) (overrides : Bool) :
    (s.noting o overrides).heap = s.heap := by
  unfold noting
  split <;> rfl

/-- The second machine has the property under the key of the object, at the end of the keys
if it is new; all else is as in the first: the other properties and what else the object
has, the other objects, and all that is no object. -/
structure Sets (s : Machine) (o : Address) (k : Key) (p : Property) (t : Machine) :
    Prop where
  own : (t.heap.get o).own? k = some p
  others : ∀ l, l ≠ k → (t.heap.get o).own? l = (s.heap.get o).own? l
  keys : (t.heap.get o).table.keys =
    if (s.heap.get o).hasOwn k then (s.heap.get o).table.keys
    else (s.heap.get o).table.keys ++ [k]
  object : t.heap.get o = { s.heap.get o with table := (t.heap.get o).table }
  objects : ∀ a, a ≠ o → t.heap.get a = s.heap.get a
  size : t.heap.size = s.heap.size
  rest : t = s.withHeap t.heap

variable {s : Machine} {o : Address} {k : Key} {p : Property}

/-- A machine has already what it has. -/
theorem Sets.refl (hown : (s.heap.get o).own? k = some p) : s.Sets o k p s where
  own := hown
  others _ _ := rfl
  keys := by rw [if_pos (Object.hasOwn_iff.mpr ⟨p, hown⟩)]
  object := rfl
  objects _ _ := rfl
  size := rfl
  rest := rfl

theorem sets_withProperty (ho : s.heap.contains o = true) (k : Key) (p : Property) :
    s.Sets o k p (s.withHeap (s.heap.set o ((s.heap.get o).withProperty k p))) := by
  have hobj : (s.heap.set o ((s.heap.get o).withProperty k p)).get o =
      (s.heap.get o).withProperty k p := by
    rw [Heap.get_set, if_pos ⟨rfl, ho⟩]
  exact {
    own := by
      rw [withHeap, hobj]
      exact Object.own?_withProperty_self _ k p
    others := fun l hl => by
      rw [withHeap, hobj]
      exact Object.own?_withProperty_ne _ p hl
    keys := by
      rw [withHeap, hobj]
      cases hk : (s.heap.get o).hasOwn k with
      | true =>
        rw [if_pos rfl]
        exact PropertyTable.keys_insert_of_mem _ p
          ((PropertyTable.contains_iff_mem_keys _ k).mp hk)
      | false =>
        rw [if_neg Bool.false_ne_true]
        refine PropertyTable.keys_insert_of_not_mem _ p fun hmem => ?_
        have hhas : (s.heap.get o).hasOwn k = true :=
          (PropertyTable.contains_iff_mem_keys _ k).mpr hmem
        rw [hk] at hhas
        cases hhas
    object := by
      rw [withHeap, hobj]
      rfl
    objects := fun a ha => by
      rw [withHeap, Heap.get_set, if_neg fun h => ha h.1]
    size := Heap.size_modify ..
    rest := rfl }

end Machine

namespace Run

open Machine

variable {s : Machine} {o : Address} {k : Key} {f : Fragment}

/-- A definition on the machine is one on the object. -/
theorem define_apply (o : Address) (k : Key) (f : Fragment) (throws overrides : Bool)
    (s : Machine) : define o k f throws overrides s =
      match (s.heap.get o).define k f overrides with
      | .ok obj => (.done true, (s.noting o overrides).withHeap (s.heap.set o obj))
      | .error e => reject throws e (s.noting o overrides) := by
  show (match ((s.noting o overrides).heap.get o).define k f overrides with
    | .ok obj =>
      (Outcome.done true,
        (s.noting o overrides).withHeap ((s.noting o overrides).heap.set o obj))
    | .error e => reject throws e (s.noting o overrides)) = _
  rw [heap_noting]

theorem define_of_admits {overrides : Bool} (ho : s.heap.contains o = true) (throws : Bool)
    (h : (s.heap.get o).Admits k f overrides) :
    ∃ p t, define o k f throws overrides s = (.done true, t) ∧
      (s.noting o overrides).Sets o k p t ∧ (p = (s.heap.get o).merged k f ∨
        (s.heap.get o).own? k = some p ∧ t = s.noting o overrides ∧
          ∃ d v, p = .data d ∧ (s.heap.get o).merged k f = .data { d with value := v } ∧
            v.same d.value = true) := by
  rw [define_apply]
  have ho' : (s.noting o overrides).heap.contains o = true := by rwa [heap_noting]
  rcases Object.define_of_admits h with hd | ⟨p, hown, hm, hd⟩
  · have hset := sets_withProperty ho' k ((s.heap.get o).merged k f)
    rw [heap_noting] at hset
    rw [hd]
    exact ⟨_, _, rfl, hset, .inl rfl⟩
  · have hown' : ((s.noting o overrides).heap.get o).own? k = some p := by rwa [heap_noting]
    have hkept : (s.noting o overrides).withHeap (s.heap.set o (s.heap.get o)) =
        s.noting o overrides := by
      rw [Heap.set_get, ← heap_noting s o overrides]
      rfl
    have hmerged : (s.heap.get o).merged k f = f.merged p := by
      rw [Object.merged, hown]; rfl
    rw [hd, hmerged]
    refine ⟨p, _, congrArg (Prod.mk _) hkept, .refl hown', ?_⟩
    rcases hm.eq_or_same with heq | hsame
    · exact .inl heq
    · exact .inr ⟨hown, rfl, hsame⟩

theorem define_of_not_admits {overrides : Bool} (throws : Bool)
    (h : ¬ (s.heap.get o).Admits k f overrides) :
    define o k f throws overrides s =
      reject throws ((s.heap.get o).refusal k) (s.noting o overrides) := by
  rw [define_apply, Object.define_of_not_admits h]

end Run

namespace Machine

/-- A definition decides by one rule, and makes exactly the merged property. It is accepted
when there is no property and the object takes one, or is overridden, when there is one that
is not locked, and when the fragment respects the lock. Then the merged property stands
under the key and nothing else has changed; only a value that is the same, where all that
the fragment names is there already, is not written again. What is not accepted is refused
with a type error, or by answering `false`, and changes nothing. An undetermined value is
never there already. -/
theorem definition_decides {s : Machine} {o : Address} (ho : s.heap.contains o = true)
    (k : Key) (f : Fragment) (throws overrides : Bool) :
    let obj := s.heap.get o
    let new := f.merged ((obj.own? k).getD .absent)
    ((Run.define o k f throws overrides s).1 = .done true ↔ obj.Admits k f overrides) ∧
    (obj.Admits k f overrides → ∃ p t, Run.define o k f throws overrides s = (.done true, t) ∧
      (s.noting o overrides).Sets o k p t ∧
      (p = new ∨ obj.own? k = some p ∧ t = s.noting o overrides ∧
        ∃ d v, p = .data d ∧ new = .data { d with value := v } ∧ v.same d.value = true)) ∧
    (¬ obj.Admits k f overrides → Run.define o k f throws overrides s =
      Run.reject throws (obj.refusal k) (s.noting o overrides)) ∧
    (obj.refusal k).kind = .typeError ∧
    (f.value = some .unknown → ∀ p : Property, p.kind = .data →
      ¬ f.Matches p ∧ (p.isWritable = false → ¬ f.RespectsLock p)) := by
  intro obj new
  refine ⟨⟨fun hdone => ?_, fun hadmits => ?_⟩, Run.define_of_admits ho throws,
    Run.define_of_not_admits throws, obj.kind_refusal k, fun hv p hk =>
      ⟨Fragment.not_matches_unknown hv hk, Fragment.not_respectsLock_unknown hv hk⟩⟩
  · by_contra hrefused
    rw [Run.define_of_not_admits throws hrefused] at hdone
    exact Run.reject_ne_true (Prod.ext hdone rfl)
  · obtain ⟨p, t, hdone, _⟩ := Run.define_of_admits ho throws hadmits
    rw [hdone]

/-- The `length` of Function.prototype, locked at 0 from the start, does not become 1. -/
theorem length_of_functionPrototype_refuses :
    (bare .standard).heap.contains .functionPrototype = true ∧
      Run.define .functionPrototype .length (.valueOnly (.ofInt 1)) true true (bare .standard) =
        (.raised (.cannotRedefine .length),
          (bare .standard).note (.overrode .functionPrototype)) := by
  have ho : (bare .standard).heap.contains .functionPrototype = true := by decide
  obtain ⟨_, _, hrefused, _, _⟩ :=
    definition_decides ho .length (.valueOnly (.ofInt 1)) true true
  refine ⟨ho, hrefused ?_⟩
  rintro (hunlocked | hlock)
  · cases hunlocked
  · have hpermitted := (Fragment.permittedBy_iff rfl).mpr hlock
    revert hpermitted
    decide +kernel

end Machine
end ScriptModel
