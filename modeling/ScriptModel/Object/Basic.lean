import ScriptModel.Script.Step
import ScriptModel.Property.Table

/-!
# Objects

An object has a class, own properties, a prototype or none, and what makes it callable. That
all callable objects are of class Function is part of what an object is. This module holds
the rules for changing one object: `define` merges a fragment into a property, `delete`
removes one. Both check everything before they change anything.
-/

namespace ScriptModel

/-- An object (`JsObject`). -/
structure Object where
  cls : ObjectClass
  table : PropertyTable
  extensible : Bool
  proto : Option Address
  callable : Option (Callable Step)
  cls_of_callable : callable.isSome = true → cls = .function

instance : Inhabited Object := ⟨⟨default, default, default, default, none, nofun⟩⟩

namespace Object

/-- A plain object of a class. -/
def ofClass (cls : ObjectClass) (proto : Option Address) : Object :=
  ⟨cls, .empty, true, proto, none, nofun⟩

/-- A callable object of class Function. -/
def function (c : Callable Step) (proto : Option Address) : Object :=
  ⟨.function, .empty, true, proto, some c, fun _ => rfl⟩

def isCallable (o : Object) : Bool := o.callable.isSome

/-- The object's own property under a key (`get_own_property`). -/
def own? (o : Object) (k : Key) : Option Property := o.table.get? k

def hasOwn (o : Object) (k : Key) : Bool := o.table.contains k

def keys (o : Object) : List Key := o.table.orderedKeys

/-- The object with a property written, whatever was there (`insert_own_property`). -/
def withProperty (o : Object) (k : Key) (p : Property) : Object :=
  { o with table := o.table.insert k p }

end Object

/-! ## Definition -/

namespace Fragment

/-- A locked property permits the fragment (the checks of `merge_descriptor`): it neither
unlocks the property nor changes what the lock covers. A locked data property that is
writable may still take any value. -/
def permittedBy (f : Fragment) (current : Property) : Bool :=
  f.configurable != some true && agrees (· == ·) f.enumerable current.enumerable &&
    (f.isGeneric ||
      match f.kind, current with
      | .data, .data d =>
        d.writable || (f.writable != some true && agrees Value.same f.value d.value)
      | .accessor, .accessor a =>
        agrees (· == ·) f.setter a.setter && agrees (· == ·) f.getter a.getter
      | _, _ => false)

/-- What the fragment is written onto: the property itself, or a blank one of the fragment's
kind when that differs (`converted`). The shared flags stay. -/
def base (f : Fragment) (current : Property) : Property :=
  if f.isGeneric || decide (f.kind = current.kind) then current
  else .blank f.kind current.enumerable current.configurable

end Fragment

namespace Object

/-- The property that a definition writes (`merge_descriptor`): `none` when all is as the
fragment wants it. An override lets an object that takes no properties take this one; it
opens no lock. -/
def merge (o : Object) (k : Key) (f : Fragment) (overrides : Bool) :
    Except Exception (Option Property) :=
  match o.own? k with
  | none =>
    if o.extensible || overrides then .ok (some f.create) else .error (.cannotDefine k)
  | some current =>
    if f.isWithin current then .ok none
    else if current.configurable || f.permittedBy current then
      .ok (some (f.write (f.base current)))
    else .error (.cannotRedefine k)

/-- The object after a definition (`define_own_property`). -/
def define (o : Object) (k : Key) (f : Fragment) (overrides : Bool) :
    Except Exception Object :=
  match o.merge k f overrides with
  | .ok none => .ok o
  | .ok (some p) => .ok (o.withProperty k p)
  | .error e => .error e

/-- The object after a deletion. -/
def delete (o : Object) (k : Key) : Except Exception Object :=
  match o.own? k with
  | none => .ok o
  | some p =>
    if p.configurable then .ok { o with table := o.table.erase k } else .error (.cannotDelete k)

@[simp] theorem own?_withProperty_self (o : Object) (k : Key) (p : Property) :
    (o.withProperty k p).own? k = some p := o.table.get?_insert_self k p

theorem own?_withProperty_ne (o : Object) {k l : Key} (p : Property) (h : l ≠ k) :
    (o.withProperty k p).own? l = o.own? l := o.table.get?_insert_ne p h

/-- A definition that succeeds has changed nothing, or has written the merged property. -/
theorem define_eq_ok {o obj : Object} {k : Key} {f : Fragment} {overrides : Bool}
    (h : o.define k f overrides = .ok obj) :
    (o.merge k f overrides = .ok none ∧ obj = o) ∨
      ∃ p, o.merge k f overrides = .ok (some p) ∧ obj = o.withProperty k p := by
  unfold define at h
  split at h
  · rename_i hm
    cases h
    exact Or.inl ⟨hm, rfl⟩
  · rename_i p hm
    cases h
    exact Or.inr ⟨p, hm, rfl⟩
  · cases h

/-- A definition concerns one key. -/
theorem own?_of_define_ne {o obj : Object} {k l : Key} {f : Fragment} {overrides : Bool}
    (h : o.define k f overrides = .ok obj) (hl : l ≠ k) : obj.own? l = o.own? l := by
  rcases define_eq_ok h with ⟨_, rfl⟩ | ⟨p, _, rfl⟩
  · rfl
  · exact own?_withProperty_ne o p hl

/-- A deletion that succeeds leaves the key without a property. -/
theorem own?_of_delete_self {o obj : Object} {k : Key} (h : o.delete k = .ok obj) :
    obj.own? k = none := by
  unfold delete at h
  split at h
  · rename_i hk
    cases h
    exact hk
  · split at h
    · cases h
      exact o.table.get?_erase_self k
    · cases h

/-- A deletion concerns one key. -/
theorem own?_of_delete_ne {o obj : Object} {k l : Key} (h : o.delete k = .ok obj)
    (hl : l ≠ k) : obj.own? l = o.own? l := by
  unfold delete at h
  split at h
  · cases h
    rfl
  · split at h
    · cases h
      exact o.table.get?_erase_ne hl
    · cases h

/-- The addresses that an object keeps alive. Its prototype is not among them. -/
def references (o : Object) : List Address :=
  (o.table.bindings.flatMap fun e => e.2.references) ++
  (match o.callable with
    | none => []
    | some c => c.references)

end Object
end ScriptModel
