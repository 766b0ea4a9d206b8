import Mathlib.Logic.Relation
import ScriptModel.Proofs.Heap.Acyclic

/-!
# What stands above an object

One object is above another when one or more links lead up to it. In an acyclic heap this is
a strict order, and the list of ancestors, which is cut off at the size of the heap, has
exactly the objects above. The look-ups of the heap search such a list. A walk that goes
from link to link until it meets what it looks for, or until the chain is over, comes to the
same, and comes to an end.
-/

namespace ScriptModel
namespace Heap

/-- The second object is the prototype of the first. -/
def Linked (h : Heap) (a b : Address) : Prop := (h.get a).proto = some b

/-- One or more links lead from `a` up to `p`. -/
def Above (h : Heap) (p a : Address) : Prop := Relation.TransGen h.Linked a p

variable {h : Heap}

theorem above_of_climb {n : Nat} {p a : Address} (hc : h.climb (n + 1) (some a) = some p) :
    h.Above p a := by
  induction n generalizing p with
  | zero => exact .single hc
  | succ n ih =>
    rw [climb_add] at hc
    cases hb : h.climb (n + 1) (some a) with
    | none =>
      rw [hb] at hc
      cases hc
    | some b =>
      rw [hb] at hc
      exact .tail (ih hb) hc

theorem Above.climb {p a : Address} (hp : h.Above p a) :
    ∃ n, h.climb (n + 1) (some a) = some p := by
  induction hp with
  | single hl => exact ⟨0, hl⟩
  | tail _ hl ih =>
    obtain ⟨n, hn⟩ := ih
    refine ⟨n + 1, ?_⟩
    rw [climb_add, hn]
    exact hl

theorem Above.trans {a b c : Address} (hab : h.Above a b) (hbc : h.Above b c) :
    h.Above a c :=
  Relation.TransGen.trans hbc hab

namespace Acyclic

variable (hh : h.Acyclic)
include hh

/-- No object is on its own chain. -/
theorem not_above_self (a : Address) : ¬ h.Above a a := by
  intro ha
  obtain ⟨n, hn⟩ := ha.climb
  exact hh.climb_ne_self n a hn

theorem not_above_of_above {a b : Address} (hab : h.Above a b) : ¬ h.Above b a :=
  fun hba => hh.not_above_self a (hab.trans hba)

/-- The ancestors are all objects above: where they are cut off, the chain is over. -/
theorem mem_ancestors_iff {p a : Address} : p ∈ h.ancestors a ↔ h.Above p a := by
  constructor
  · intro hp
    obtain ⟨i, _, hi⟩ := mem_upward.mp hp
    exact above_of_climb (n := i) hi
  · intro hp
    obtain ⟨n, hn⟩ := hp.climb
    refine (mem_chain_iff.mp (hh.mem_chain hn)).resolve_left ?_
    rintro rfl
    exact hh.not_above_self _ hp

theorem isAbove_iff {p a : Address} : h.isAbove p a = true ↔ h.Above p a := by
  rw [← hh.mem_ancestors_iff]
  exact List.contains_iff_mem

theorem wouldCycle_some_iff {o q : Address} :
    h.wouldCycle o (some q) = true ↔ o = q ∨ h.Above o q := by
  rw [← hh.mem_ancestors_iff, ← mem_chain_iff]
  exact List.contains_iff_mem

theorem wouldCycle_eq_false_iff {o : Address} {p : Option Address} :
    h.wouldCycle o p = false ↔ ∀ q, p = some q → o ≠ q ∧ ¬ h.Above o q := by
  cases p with
  | none => simp [wouldCycle]
  | some q =>
    rw [← Bool.not_eq_true, hh.wouldCycle_some_iff, not_or]
    simp

end Acyclic

/-! ## Walks -/

/-- A walk upward from a link: the first object that is looked for, or none when the chain
is over. A walk that is still going on after `n` objects has come to nothing yet. -/
def walk (h : Heap) (sought : Address → Bool) :
    Nat → Option Address → Option (Option Address)
  | _, none => some none
  | 0, some _ => none
  | n + 1, some a => if sought a then some (some a) else h.walk sought n (h.get a).proto

/-- A walk is over when its links are. -/
theorem walk_of_climb {sought : Address → Bool} {n : Nat} {p : Option Address}
    (hn : h.climb n p = none) : h.walk sought n p = some ((h.upward n p).find? sought) := by
  induction n generalizing p with
  | zero =>
    rw [climb_zero] at hn
    subst hn
    rfl
  | succ n ih =>
    cases p with
    | none => rfl
    | some a =>
      rw [walk, upward, List.find?_cons, ih (climb_succ_some h n a ▸ hn)]
      cases sought a <;> rfl

/-- To look for one address is to ask whether it is there. -/
theorem isSome_find?_beq (as : List Address) (a : Address) :
    (as.find? (· == a)).isSome = as.contains a := by
  rw [Bool.eq_iff_iff, List.find?_isSome, List.contains_iff_mem]
  simp

/-- Beyond its end a chain has nothing. -/
theorem upward_of_climb {m n : Nat} {p : Option Address} (hm : h.climb m p = none)
    (hmn : m ≤ n) : h.upward n p = h.upward m p := by
  induction m generalizing n p with
  | zero =>
    rw [climb_zero] at hm
    rw [hm, upward_none, upward_none]
  | succ m ih =>
    obtain ⟨n, rfl⟩ :=
      Nat.exists_eq_add_one_of_ne_zero (Nat.ne_of_gt (Nat.zero_lt_of_lt hmn))
    cases p with
    | none => rw [upward_none, upward_none]
    | some a =>
      rw [upward, upward, ih (climb_succ_some h m a ▸ hm) (Nat.le_of_succ_le_succ hmn)]

namespace Acyclic

variable (hh : h.Acyclic)
include hh

/-- A walk from an object searches its chain. -/
theorem walk_chain (sought : Address → Bool) {n : Nat} (hn : h.size < n) (a : Address) :
    h.walk sought n (some a) = some ((h.chain a).find? sought) := by
  have hchain : h.chain a = h.upward (h.size + 1) (some a) := rfl
  rw [walk_of_climb (climb_eq_none_of_le (hh.climb_size a) hn), hchain,
    upward_of_climb (hh.climb_size a) hn]

/-- A walk from the prototype of an object searches what is above the object. -/
theorem walk_ancestors (sought : Address → Bool) {n : Nat} (hn : h.size ≤ n) (a : Address) :
    h.walk sought n (h.get a).proto = some ((h.ancestors a).find? sought) := by
  have hend : h.climb h.size (h.get a).proto = none := hh.climb_size a
  rw [walk_of_climb (climb_eq_none_of_le hend hn), upward_of_climb hend hn]
  rfl

/-- Every walk is over after as many objects as there are, and one more where it starts. -/
theorem walk_ends (sought : Address → Bool) (p : Option Address) :
    ∃ r, ∀ n, h.size < n → h.walk sought n p = some r := by
  cases p with
  | none =>
    refine ⟨none, fun n _ => ?_⟩
    cases n <;> rfl
  | some a => exact ⟨_, fun n hn => hh.walk_chain sought hn a⟩

/-! ## Look-ups are walks -/

theorem walk_holder (k : Key) {n : Nat} (hn : h.size < n) (a : Address) :
    h.walk (fun b => (h.get b).hasOwn k) n (some a) = some (h.holder? a k) :=
  hh.walk_chain _ hn a

theorem walk_wouldCycle (o : Address) (p : Option Address) {n : Nat} (hn : h.size < n) :
    (h.walk (· == o) n p).map Option.isSome = some (h.wouldCycle o p) := by
  cases p with
  | none => cases n <;> rfl
  | some q => rw [hh.walk_chain _ hn, Option.map_some, isSome_find?_beq, wouldCycle]

theorem walk_isAbove (p a : Address) {n : Nat} (hn : h.size < n) :
    (h.walk (· == p) n (h.get a).proto).map Option.isSome = some (h.isAbove p a) := by
  rw [hh.walk_ancestors _ (Nat.le_of_lt hn), Option.map_some, isSome_find?_beq, isAbove]

end Acyclic

/-! ## Requests for another prototype -/

/-- The object has the prototype already, or it is extensible and neither is the prototype
itself nor stands above it. -/
def Grants (h : Heap) (o : Address) (p : Option Address) : Prop :=
  (h.get o).proto = p ∨ ((h.get o).extensible = true ∧ ∀ q, p = some q → o ≠ q ∧ ¬ h.Above o q)

theorem Acyclic.setPrototype_isSome_iff (hh : h.Acyclic) {o : Address}
    {p : Option Address} : (h.setPrototype o p).isSome = true ↔ h.Grants o p := by
  unfold Grants Heap.setPrototype
  rw [← hh.wouldCycle_eq_false_iff]
  split
  · rename_i hp
    simp [hp]
  · rename_i hp
    cases (h.get o).extensible <;> cases h.wouldCycle o p <;> simp [hp]

theorem size_setPrototype {h' : Heap} {o : Address} {p : Option Address}
    (hs : h.setPrototype o p = some h') : h'.size = h.size := by
  rcases setPrototype_eq_some hs with ⟨rfl, _⟩ | ⟨rfl, _, _⟩
  · rfl
  · exact size_modify h o _

/-- When the request is granted, the object has the prototype that was asked for, and all
else is as before. -/
theorem get_setPrototype {h' : Heap} {o : Address} {p : Option Address}
    (hs : h.setPrototype o p = some h') (ho : h.contains o = true)
    (hp : ∀ q, p = some q → h.contains q = true) (a : Address) :
    h'.get a = if a = o then { h.get a with proto := p } else h.get a := by
  rcases setPrototype_eq_some hs with ⟨rfl, hsame⟩ | ⟨rfl, _, _⟩
  · split
    · rename_i ha
      rw [ha, ← hsame]
    · rfl
  · have hlink : h.link p = p := by
      cases p with
      | none => rfl
      | some q => exact link_of_contains (hp q rfl)
    rw [get_relink, hlink]
    simp only [ho, and_true]

end Heap
end ScriptModel
