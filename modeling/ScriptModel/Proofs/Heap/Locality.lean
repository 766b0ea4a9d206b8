import ScriptModel.Proofs.Heap.Lookup

/-!
# What a look-up depends on

A look-up visits the objects from the start of the chain up to the first that has the key
(`Heap.Visits`), and asks each for the key alone. So it comes to the same in every heap in
which these objects answer the same: other keys, objects off the chain and objects above the
first holder have no part in it. Where an object is visited, a property that it gains hides
what is above, and losing the property lets the look-up go on.
-/

namespace ScriptModel
namespace Heap

/-- A look-up from the first object visits the second: no object before it has the key. -/
inductive Visits (h : Heap) (k : Key) : Address → Address → Prop where
  | start {a : Address} : Visits h k a a
  | above {a b c : Address} : (h.get a).own? k = none →
    (h.get a).proto = some c → Visits h k c b → Visits h k a b

variable {h h' : Heap} {k : Key} {a b : Address} {p : Property}

/-- What is found is what the last object visited has. -/
theorem finds_iff_visits :
    h.Finds k a b p ↔ h.Visits k a b ∧ (h.get b).own? k = some p := by
  constructor
  · intro hf
    refine ⟨?_, hf.own?⟩
    induction hf with
    | own _ => exact .start
    | above hnone hproto _ ih => exact .above hnone hproto ih
  · rintro ⟨hv, hp⟩
    induction hv with
    | start => exact .own hp
    | above hnone hproto _ ih => exact .above hnone hproto (ih hp)

/-- A look-up goes on from an object without the key. -/
theorem Visits.step {c : Address} (hv : h.Visits k a b) (hnone : (h.get b).own? k = none)
    (hproto : (h.get b).proto = some c) : h.Visits k a c := by
  induction hv with
  | start => exact .above hnone hproto .start
  | above hnone' hproto' _ ih => exact .above hnone' hproto' (ih hnone hproto)

/-- Each object that a look-up from `a` visits in the first heap has the same property under
the key in the second, or none in both and the same prototype. -/
def LooksSame (h h' : Heap) (k : Key) (a : Address) : Prop :=
  ∀ b, h.Visits k a b → (h'.get b).own? k = (h.get b).own? k ∧
    ((h.get b).own? k = none → (h'.get b).proto = (h.get b).proto)

namespace LooksSame

variable (hs : h.LooksSame h' k a)
include hs

/-- Agreement from an object without the key is agreement from its prototype. -/
theorem above {c : Address} (hnone : (h.get a).own? k = none)
    (hproto : (h.get a).proto = some c) :
    h.LooksSame h' k c := fun b hb => hs b (.above hnone hproto hb)

/-- The look-ups visit the same objects. -/
theorem visits_iff : h'.Visits k a b ↔ h.Visits k a b := by
  constructor
  · intro hv
    induction hv with
    | start => exact .start
    | @above a b c hnone hproto _ ih =>
      obtain ⟨hown, hlink⟩ := hs a .start
      have hnone' : (h.get a).own? k = none := hown ▸ hnone
      have hproto' : (h.get a).proto = some c := hlink hnone' ▸ hproto
      exact .above hnone' hproto' (ih (hs.above hnone' hproto'))
  · intro hv
    induction hv with
    | start => exact .start
    | @above a b c hnone hproto _ ih =>
      obtain ⟨hown, hlink⟩ := hs a .start
      exact .above (hown.trans hnone) ((hlink hnone).trans hproto) (ih (hs.above hnone hproto))

/-- They find the same. -/
theorem finds_iff : h'.Finds k a b p ↔ h.Finds k a b p := by
  rw [finds_iff_visits, finds_iff_visits, hs.visits_iff]
  refine and_congr_right fun hv => ?_
  rw [(hs b hv).1]

end LooksSame

/-! ## A property that comes and goes -/

/-- Where an object that is visited has no property, the look-up goes on from its
prototype. -/
theorem Visits.finds_iff {c : Address} (hv : h.Visits k a b)
    (hnone : (h.get b).own? k = none) :
    h.Finds k a c p ↔ ∃ d, (h.get b).proto = some d ∧ h.Finds k d c p := by
  induction hv with
  | start =>
    constructor
    · intro hf
      cases hf with
      | own hp => cases hnone.symm.trans hp
      | above _ hproto hf => exact ⟨_, hproto, hf⟩
    · rintro ⟨d, hproto, hf⟩
      exact .above hnone hproto hf
  | @above a b e hnone' hproto _ ih =>
    rw [← ih hnone]
    constructor
    · intro hf
      cases hf with
      | own hp => cases hnone'.symm.trans hp
      | above _ hproto' hf =>
        cases hproto.symm.trans hproto'
        exact hf
    · exact .above hnone' hproto

/-- The heaps agree, but for what `b` has under the key. -/
structure DiffersAt (h h' : Heap) (k : Key) (b : Address) : Prop where
  own? : ∀ c, c ≠ b → (h'.get c).own? k = (h.get c).own? k
  proto : ∀ c, (h'.get c).proto = (h.get c).proto

namespace DiffersAt

/-- Storing an object with another property under the key and the same prototype. -/
theorem set {obj : Object} (hproto : obj.proto = (h.get b).proto) :
    h.DiffersAt (h.set b obj) k b := by
  refine ⟨fun c hc => ?_, fun c => ?_⟩
  · rw [get_set, if_neg fun hcb => hc hcb.1]
  · rw [get_set]
    split
    · rename_i hcb
      rw [hproto, hcb.1]
    · rfl

theorem trans {h'' : Heap} (hd : h.DiffersAt h' k b) (hd' : h'.DiffersAt h'' k b) :
    h.DiffersAt h'' k b where
  own? c hc := (hd'.own? c hc).trans (hd.own? c hc)
  proto c := (hd'.proto c).trans (hd.proto c)

variable (hd : h.DiffersAt h' k b)
include hd

end DiffersAt

end Heap
end ScriptModel
