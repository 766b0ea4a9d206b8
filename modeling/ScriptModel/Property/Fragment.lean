import ScriptModel.Property.Basic

/-!
# Fragments

A definition need not name every field of a property. A fragment holds the fields that it
names; its kind says what it makes of a property when it names a field that only one kind
has. A field of the other kind makes the fragment specific but is not written.
-/

namespace ScriptModel

/-- A partial property (`PropertyDescriptorSetter`): a field takes part when it is
present. -/
structure Fragment where
  kind : PropertyKind
  value : Option Value
  writable : Option Bool
  getter : Option (Option Address)
  setter : Option (Option Address)
  enumerable : Option Bool
  configurable : Option Bool

namespace Fragment

/-- Only a new value (`value_only`). -/
def valueOnly (v : Value) : Fragment := ⟨.data, some v, none, none, none, none, none⟩

/-- All fields of a data property. -/
def data (v : Value) (writable enumerable configurable : Bool) : Fragment :=
  ⟨.data, some v, some writable, none, none, some enumerable, some configurable⟩

/-- No field that only one kind has (`is_generic_descriptor`). -/
def isGeneric (f : Fragment) : Bool :=
  f.value.isNone && f.writable.isNone && f.getter.isNone && f.setter.isNone

/-- A present field agrees with what is there. -/
def agrees {α : Type} (eq : α → α → Bool) (field : Option α) (current : α) : Bool :=
  match field with
  | none => true
  | some x => eq x current

/-- Every field already has its value in the property (`is_subset_of`). -/
def isWithin (f : Fragment) (p : Property) : Bool :=
  agrees (· == ·) f.enumerable p.enumerable && agrees (· == ·) f.configurable p.configurable &&
    (f.isGeneric ||
      match f.kind, p with
      | .data, .data d =>
        agrees Value.same f.value d.value && agrees (· == ·) f.writable d.writable
      | .accessor, .accessor a =>
        agrees (· == ·) f.getter a.getter && agrees (· == ·) f.setter a.setter
      | _, _ => false)

/-- The property with the fragment's shared flags written onto it. -/
def writeFlags (f : Fragment) (p : Property) : Property :=
  let p := match f.enumerable with
    | none => p
    | some b => p.withEnumerable b
  match f.configurable with
  | none => p
  | some b => p.withConfigurable b

/-- The property with the fragment's fields written onto it (`apply_to`). -/
def write (f : Fragment) (p : Property) : Property :=
  match f.kind, f.writeFlags p with
  | .data, .data d =>
    .data { d with value := f.value.getD d.value, writable := f.writable.getD d.writable }
  | .accessor, .accessor a =>
    .accessor { a with getter := f.getter.getD a.getter, setter := f.setter.getD a.setter }
  | _, q => q

/-- The property that the fragment makes where none was (`into_new_descriptor`). -/
def create (f : Fragment) : Property :=
  f.write (.blank (if f.isGeneric then .data else f.kind) false false)

/-! ## What a fragment writes -/

@[simp] theorem kind_writeFlags (f : Fragment) (p : Property) :
    (f.writeFlags p).kind = p.kind := by
  cases he : f.enumerable <;> cases hc : f.configurable <;> simp [writeFlags, he, hc]

@[simp] theorem enumerable_writeFlags (f : Fragment) (p : Property) :
    (f.writeFlags p).enumerable = f.enumerable.getD p.enumerable := by
  cases he : f.enumerable <;> cases hc : f.configurable <;> simp [writeFlags, he, hc]

@[simp] theorem configurable_writeFlags (f : Fragment) (p : Property) :
    (f.writeFlags p).configurable = f.configurable.getD p.configurable := by
  cases he : f.enumerable <;> cases hc : f.configurable <;> simp [writeFlags, he, hc]

theorem writeFlags_data (f : Fragment) (d : DataProperty) :
    f.writeFlags (.data d) = .data { d with
      enumerable := f.enumerable.getD d.enumerable
      configurable := f.configurable.getD d.configurable } := by
  cases he : f.enumerable <;> cases hc : f.configurable <;>
    simp [writeFlags, he, hc, Property.withEnumerable, Property.withConfigurable]

theorem writeFlags_accessor (f : Fragment) (a : AccessorProperty) :
    f.writeFlags (.accessor a) = .accessor { a with
      enumerable := f.enumerable.getD a.enumerable
      configurable := f.configurable.getD a.configurable } := by
  cases he : f.enumerable <;> cases hc : f.configurable <;>
    simp [writeFlags, he, hc, Property.withEnumerable, Property.withConfigurable]

/-- Writing never changes the kind. -/
@[simp] theorem kind_write (f : Fragment) (p : Property) : (f.write p).kind = p.kind := by
  rw [← kind_writeFlags f p]
  unfold write
  split <;> rename_i hp <;> simp [hp, Property.kind]

@[simp] theorem enumerable_write (f : Fragment) (p : Property) :
    (f.write p).enumerable = f.enumerable.getD p.enumerable := by
  rw [← enumerable_writeFlags f p]
  unfold write
  split <;> rename_i hp <;> simp [hp, Property.enumerable]

@[simp] theorem configurable_write (f : Fragment) (p : Property) :
    (f.write p).configurable = f.configurable.getD p.configurable := by
  rw [← configurable_writeFlags f p]
  unfold write
  split <;> rename_i hp <;> simp [hp, Property.configurable]

end Fragment
end ScriptModel
