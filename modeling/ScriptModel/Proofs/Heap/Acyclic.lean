import Mathlib.Data.Fintype.Pigeonhole
import Mathlib.Tactic.Choose
import ScriptModel.Proofs.Heap.Update

/-!
# Prototype chains end

In an acyclic heap every link leads to an object, and every walk along links comes to an
end. Such a walk meets no object twice, so it is over after as many steps as there are
objects, and a chain that is cut off there misses nothing. The check for cycles relies on
this, and the heap stays acyclic because of the check.
-/

namespace ScriptModel
namespace Heap

/-- Follows `n` links upward. -/
def climb (h : Heap) : Nat → Option Address → Option Address
  | 0, p => p
  | n + 1, p => h.climb n (p.bind fun a => (h.get a).proto)

@[simp] theorem climb_zero (h : Heap) (p : Option Address) : h.climb 0 p = p := rfl

@[simp] theorem climb_none (h : Heap) (n : Nat) : h.climb n none = none := by
  induction n with
  | zero => rfl
  | succ n ih => exact ih

theorem climb_succ_some (h : Heap) (n : Nat) (a : Address) :
    h.climb (n + 1) (some a) = h.climb n (h.get a).proto := rfl

theorem climb_add (h : Heap) (m n : Nat) (p : Option Address) :
    h.climb (m + n) p = h.climb n (h.climb m p) := by
  induction m generalizing p with
  | zero => rw [Nat.zero_add, climb_zero]
  | succ m ih =>
    rw [Nat.succ_add]
    exact ih _

/-- A walk that is over stays over. -/
theorem climb_eq_none_of_le {h : Heap} {m n : Nat} {p : Option Address}
    (hm : h.climb m p = none) (hn : m ≤ n) : h.climb n p = none := by
  obtain ⟨k, rfl⟩ := Nat.exists_eq_add_of_le hn
  rw [climb_add, hm, climb_none]

theorem mem_upward {h : Heap} {n : Nat} {p : Option Address} {b : Address} :
    b ∈ h.upward n p ↔ ∃ i, i < n ∧ h.climb i p = some b := by
  induction n generalizing p with
  | zero => simp [upward]
  | succ n ih =>
    cases p with
    | none => simp
    | some a =>
      simp only [upward, List.mem_cons, ih]
      constructor
      · rintro (rfl | ⟨i, hi, hc⟩)
        · exact ⟨0, Nat.succ_pos n, rfl⟩
        · exact ⟨i + 1, Nat.succ_lt_succ hi, hc⟩
      · rintro ⟨i, hi, hc⟩
        cases i with
        | zero => exact .inl (Option.some.inj hc).symm
        | succ i => exact .inr ⟨i, Nat.lt_of_succ_lt_succ hi, hc⟩

/-- Links lead to objects, and every walk along them ends. -/
structure Acyclic (h : Heap) : Prop where
  linked : ∀ a p, (h.get a).proto = some p → h.contains p = true
  ends : ∀ a, ∃ n, h.climb n (some a) = none

namespace Acyclic

variable {h : Heap} (hh : h.Acyclic)
include hh

theorem contains_of_climb {n : Nat} {a b : Address}
    (hb : h.climb (n + 1) (some a) = some b) : h.contains b = true := by
  rw [climb_add] at hb
  cases hc : h.climb n (some a) with
  | none =>
    rw [hc] at hb
    cases hb
  | some c =>
    rw [hc] at hb
    exact hh.linked c b hb

/-- No walk comes back to where it was. -/
theorem climb_ne_self (n : Nat) (a : Address) : h.climb (n + 1) (some a) ≠ some a := by
  intro hc
  have hrepeat : ∀ k, h.climb (k * (n + 1)) (some a) = some a := by
    intro k
    induction k with
    | zero => rw [Nat.zero_mul, climb_zero]
    | succ k ih => rw [Nat.succ_mul, climb_add, ih, hc]
  obtain ⟨m, hm⟩ := hh.ends a
  have hover := climb_eq_none_of_le hm (Nat.le_mul_of_pos_right m (Nat.succ_pos n))
  rw [hrepeat m] at hover
  cases hover

theorem eq_of_climb {i j : Nat} {p : Option Address} {b : Address}
    (hi : h.climb i p = some b) (hj : h.climb j p = some b) : i = j := by
  rcases Nat.lt_trichotomy i j with hlt | heq | hlt
  · obtain ⟨k, rfl⟩ := Nat.exists_eq_add_of_lt hlt
    rw [Nat.add_assoc, climb_add, hi] at hj
    exact absurd hj (hh.climb_ne_self k b)
  · exact heq
  · obtain ⟨k, rfl⟩ := Nat.exists_eq_add_of_lt hlt
    rw [Nat.add_assoc, climb_add, hj] at hi
    exact absurd hi (hh.climb_ne_self k b)

/-- A walk is over after as many links as there are objects: otherwise two of its objects
would be the same. -/
theorem climb_size (a : Address) : h.climb (h.size + 1) (some a) = none := by
  cases hend : h.climb (h.size + 1) (some a) with
  | none => rfl
  | some c =>
    have hmet : ∀ i : Fin (h.size + 1), ∃ b, h.climb (i + 1) (some a) = some b := by
      intro i
      refine Option.ne_none_iff_exists'.mp fun hnone => ?_
      rw [climb_eq_none_of_le hnone i.isLt] at hend
      cases hend
    choose met hclimb using hmet
    -- The start may be no object at all, but whatever a link leads to is one.
    let place : Fin (h.size + 1) → Fin h.size := fun i =>
      ⟨(met i).index, contains_iff.mp (hh.contains_of_climb (hclimb i))⟩
    obtain ⟨i, j, hne, hsame⟩ := Fintype.exists_ne_map_eq_of_card_lt place (by simp)
    have hmeet : met i = met j := by
      have hindex := congrArg Fin.val hsame
      exact congrArg Address.mk hindex
    have hij := hh.eq_of_climb (hclimb i) (hmeet ▸ hclimb j)
    exact absurd (Fin.ext (Nat.succ.inj hij)) hne

/-- The chain of an object has all that a walk from it meets. -/
theorem mem_chain {n : Nat} {a b : Address} (hb : h.climb n (some a) = some b) :
    b ∈ h.chain a := by
  cases n with
  | zero =>
    cases hb
    exact mem_chain_self h a
  | succ n =>
    have hn : n < h.size := by
      refine Nat.lt_of_not_le fun hle => ?_
      rw [climb_eq_none_of_le (hh.climb_size a) (Nat.succ_le_succ hle)] at hb
      cases hb
    exact mem_chain_iff.mpr (.inr (mem_upward.mpr ⟨n, hn, hb⟩))

end Acyclic

/-! ## The heap stays acyclic -/

theorem acyclic_empty : empty.Acyclic where
  linked a p hp := by
    rw [get_of_not_contains rfl] at hp
    cases hp
  ends a := by
    refine ⟨1, ?_⟩
    rw [climb_succ_some, get_of_not_contains rfl]
    rfl

/-- Fewer links make fewer walks. -/
theorem Acyclic.of_fewer {h h' : Heap} (hh : h.Acyclic) (hsize : h'.size = h.size)
    (hfewer : ∀ a p, (h'.get a).proto = some p → (h.get a).proto = some p) :
    h'.Acyclic where
  linked a p hp := by
    rw [contains, hsize]
    exact hh.linked a p (hfewer a p hp)
  ends a := by
    obtain ⟨n, hn⟩ := hh.ends a
    refine ⟨n, ?_⟩
    induction n generalizing a with
    | zero => cases hn
    | succ n ih =>
      rw [climb_succ_some] at hn ⊢
      cases hp : (h'.get a).proto with
      | none => exact climb_none h' n
      | some p =>
        rw [hfewer a p hp] at hn
        exact ih p hn

theorem Acyclic.unlink {h : Heap} (hh : h.Acyclic) (lives : Address → Bool) :
    (h.unlink lives).Acyclic := by
  refine hh.of_fewer (size_unlink h lives) fun a p hp => ?_
  rw [get_unlink] at hp
  exact (Option.filter_eq_some_iff.mp hp).1

/-- A change of one object that keeps its link. -/
theorem Acyclic.modify {h : Heap} (hh : h.Acyclic) {a : Address} {f : Object → Object}
    (hf : (f (h.get a)).proto = (h.get a).proto) : (h.modify a f).Acyclic := by
  refine hh.of_fewer (size_modify h a f) fun b p hp => ?_
  rw [get_modify] at hp
  split at hp
  · rename_i hb
    rw [hb.1] at hp ⊢
    rwa [hf] at hp
  · exact hp

/-- A walk ends if it does from the object above. -/
theorem ends_of_proto {h : Heap} {a : Address}
    (hp : ∃ n, h.climb n (h.get a).proto = none) : ∃ n, h.climb n (some a) = none := by
  obtain ⟨n, hn⟩ := hp
  exact ⟨n + 1, hn⟩

/-- Older objects do not link to a new one, so it lengthens none of their walks. -/
theorem Acyclic.climb_alloc {h : Heap} (hh : h.Acyclic) (o : Object) {n : Nat} {a : Address}
    (ha : h.contains a = true) (hn : h.climb n (some a) = none) :
    (h.alloc o).climb n (some a) = none := by
  induction n generalizing a with
  | zero => cases hn
  | succ n ih =>
    rw [climb_succ_some] at hn ⊢
    rw [get_alloc_of_contains o ha]
    cases hp : (h.get a).proto with
    | none => exact climb_none _ n
    | some p => exact ih (hh.linked a p hp) (hp ▸ hn)

theorem Acyclic.alloc {h : Heap} (hh : h.Acyclic) (o : Object) : (h.alloc o).Acyclic where
  linked a p hp := by
    rw [get_alloc] at hp
    split at hp
    · exact contains_alloc o (contains_of_link hp)
    · exact contains_alloc o (hh.linked a p hp)
  ends a := by
    cases ha : h.contains a with
    | true =>
      obtain ⟨n, hn⟩ := hh.ends a
      exact ⟨n, hh.climb_alloc o ha hn⟩
    | false =>
      -- Outside the old heap there is the new object, and what was never given out.
      refine ends_of_proto ?_
      by_cases hnext : a = h.next
      · subst hnext
        rw [get_alloc_next]
        cases hl : h.link o.proto with
        | none => exact ⟨0, rfl⟩
        | some p =>
          obtain ⟨n, hn⟩ := hh.ends p
          exact ⟨n, hh.climb_alloc o (contains_of_link hl) hn⟩
      · rw [get_alloc, if_neg hnext, get_of_not_contains ha]
        exact ⟨0, rfl⟩

/-- A walk that never meets the relinked object is as before. -/
theorem climb_relink {h : Heap} {o : Address} (p : Option Address) {q : Option Address}
    (hq : ∀ m, h.climb m q ≠ some o) (n : Nat) :
    (h.relink o p).climb n q = h.climb n q := by
  induction n generalizing q with
  | zero => rfl
  | succ n ih =>
    cases q with
    | none => simp
    | some a =>
      have hne : a ≠ o := by
        rintro rfl
        exact hq 0 rfl
      rw [climb_succ_some, climb_succ_some, get_relink, if_neg fun ha => hne ha.1]
      exact ih fun m => hq (m + 1)

/-- An object passes the check for cycles only if it is not on the chain above the
prospective link. -/
theorem Acyclic.climb_ne_of_wouldCycle {h : Heap} (hh : h.Acyclic) {o : Address}
    {p : Option Address} (hc : h.wouldCycle o p = false) (n : Nat) :
    h.climb n p ≠ some o := by
  intro hn
  cases p with
  | none => simp at hn
  | some q =>
    have hmem := hh.mem_chain hn
    simp [wouldCycle, hmem] at hc

/-- A link to an object whose chain does not lead back closes no cycle. -/
theorem Acyclic.relink {h : Heap} (hh : h.Acyclic) {o : Address} {p : Option Address}
    (hc : h.wouldCycle o p = false) : (h.relink o p).Acyclic where
  linked a q hq := by
    rw [Heap.relink, contains_modify]
    rw [get_relink] at hq
    split at hq
    · exact contains_of_link hq
    · exact hh.linked a q hq
  ends a := by
    have habove : ∃ n, (h.relink o p).climb n p = none := by
      cases p with
      | none => exact ⟨0, rfl⟩
      | some q =>
        obtain ⟨n, hn⟩ := hh.ends q
        exact ⟨n, by rw [climb_relink _ (hh.climb_ne_of_wouldCycle hc), hn]⟩
    obtain ⟨n, hn⟩ := hh.ends a
    -- The walk follows the old links until it meets the relinked object, and ends from
    -- there.
    induction n generalizing a with
    | zero => cases hn
    | succ n ih =>
      refine ends_of_proto ?_
      cases hq : ((h.relink o p).get a).proto with
      | none => exact ⟨0, rfl⟩
      | some q =>
        rw [get_relink] at hq
        split at hq
        · rw [← show p = some q from (Option.filter_eq_some_iff.mp hq).1]
          exact habove
        · rw [climb_succ_some, hq] at hn
          exact ih q hn

theorem Acyclic.release {h : Heap} (hh : h.Acyclic) (roots : List Address) :
    (h.release roots).Acyclic := by
  rw [release_eq_unlink]
  exact hh.unlink _

theorem Acyclic.setPrototype {h h' : Heap} (hh : h.Acyclic) {o : Address}
    {p : Option Address} (hs : h.setPrototype o p = some h') : h'.Acyclic := by
  rcases setPrototype_eq_some hs with ⟨rfl, _⟩ | ⟨rfl, _, hc⟩
  · exact hh
  · exact hh.relink hc

end Heap
end ScriptModel
