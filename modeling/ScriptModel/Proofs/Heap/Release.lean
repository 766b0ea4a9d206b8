import Mathlib.Data.Finset.Card
import ScriptModel.Proofs.Heap.Acyclic
import ScriptModel.Proofs.Heap.Living

/-!
# What a release leaves alone

The search for the living objects takes away what nothing holds until all that is left is
held. It ends with the largest set that is held from the roots and from within itself,
because every round but the last takes something away. A release cuts the links that lead
out of this set, so it leaves a heap alone whose links all lead to what is held.
-/

namespace ScriptModel
namespace Heap

/-- The object lives when the roots hold what they hold. -/
def Lives (h : Heap) (roots : List Address) (a : Address) : Prop :=
  (h.living roots).getD a.index false = true

/-- Each member of the set is held by a root or by another member. -/
def Supported (h : Heap) (roots : List Address) (X : Address → Prop) : Prop :=
  ∀ a, X a → h.contains a = true ∧ (a ∈ roots ∨ ∃ b, X b ∧ a ∈ (h.get b).references)

variable {h : Heap} {roots : List Address}

/-! ## The search ends -/

/-- What is marked. -/
def marked (marks : Array Bool) : Finset Nat :=
  (Finset.range marks.size).filter fun i => marks.getD i false = true

theorem mem_marked {marks : Array Bool} {i : Nat} :
    i ∈ marked marks ↔ marks.getD i false = true := by
  simp only [marked, Finset.mem_filter, Finset.mem_range, and_iff_right_iff_imp]
  intro hi
  by_contra hlt
  simp [Array.getD, hlt] at hi

theorem card_marked_le (marks : Array Bool) : (marked marks).card ≤ marks.size := by
  have hcard :=
    Finset.card_filter_le (Finset.range marks.size) fun i => marks.getD i false = true
  rwa [Finset.card_range] at hcard

theorem eq_of_marked {marks marks' : Array Bool} (hsize : marks.size = marks'.size)
    (hm : marked marks = marked marks') : marks = marks' := by
  refine Array.ext hsize fun i hi hi' => ?_
  have hiff : marks.getD i false = true ↔ marks'.getD i false = true := by
    rw [← mem_marked, ← mem_marked, hm]
  simp only [Array.getD, hi, hi', dite_true] at hiff
  exact Bool.eq_iff_iff.mpr hiff

theorem marked_heldBy_subset {living living' : Array Bool}
    (hl : marked living ⊆ marked living') :
    marked (h.heldBy roots living) ⊆ marked (h.heldBy roots living') := by
  intro i hi
  rw [mem_marked] at hi ⊢
  obtain ⟨hin, hheld⟩ := getD_heldBy (a := ⟨i⟩).mp hi
  refine getD_heldBy (a := ⟨i⟩).mpr ⟨hin, hheld.imp_right ?_⟩
  rintro ⟨b, hb, hlb, hr⟩
  exact ⟨b, hb, mem_marked.mp (hl (mem_marked.mpr hlb)), hr⟩

/-- With more rounds than there are objects left the search comes to a set that no round
changes. -/
theorem heldBy_settle {n : Nat} {living : Array Bool} (hsize : living.size = h.size)
    (hsub : marked (h.heldBy roots living) ⊆ marked living)
    (hn : (marked living).card < n) :
    h.heldBy roots (h.settle roots n living) = h.settle roots n living := by
  induction n generalizing living with
  | zero => exact absurd hn (Nat.not_lt_zero _)
  | succ n ih =>
    simp only [settle]
    split
    · rename_i heq
      exact eq_of_beq heq
    · rename_i hne
      refine ih (size_heldBy h roots living) (marked_heldBy_subset hsub) ?_
      -- The round has changed something, so it has taken something away.
      have hproper : marked (h.heldBy roots living) ≠ marked living := fun hm =>
        hne (beq_iff_eq.mpr (eq_of_marked ((size_heldBy h roots living).trans hsize.symm) hm))
      have hless := Finset.card_lt_card (hsub.ssubset_of_ne hproper)
      omega

theorem heldBy_living : h.heldBy roots (h.living roots) = h.living roots := by
  refine heldBy_settle Array.size_replicate ?_ ?_
  · intro i hi
    obtain ⟨hin, _⟩ := getD_heldBy (a := ⟨i⟩).mp (mem_marked.mp hi)
    have hlt : i < h.size := of_decide_eq_true hin
    rw [mem_marked]
    simp [Array.getD, hlt]
  · have hcard := card_marked_le (Array.replicate h.size true)
    rw [Array.size_replicate] at hcard
    exact Nat.lt_succ_of_le hcard

/-! ## The living are the largest set that is held -/

theorem supported_lives : h.Supported roots (h.Lives roots) := by
  intro a ha
  unfold Lives at ha
  rw [← heldBy_living] at ha
  obtain ⟨hin, hheld⟩ := getD_heldBy.mp ha
  refine ⟨hin, hheld.imp_right ?_⟩
  rintro ⟨b, _, hb, hr⟩
  exact ⟨b, hb, hr⟩

/-- A set that is held survives every round. -/
theorem Supported.lives {X : Address → Prop} (hX : h.Supported roots X) {a : Address}
    (ha : X a) : h.Lives roots a := by
  have hrounds : ∀ (n : Nat) (living : Array Bool),
      (∀ b, X b → living.getD b.index false = true) →
      (h.settle roots n living).getD a.index false = true := by
    intro n
    induction n with
    | zero => exact fun living hl => hl a ha
    | succ n ih =>
      intro living hl
      simp only [settle]
      split
      · exact hl a ha
      · refine ih _ fun b hb => ?_
        obtain ⟨hin, hheld⟩ := hX b hb
        refine getD_heldBy.mpr ⟨hin, hheld.imp_right ?_⟩
        rintro ⟨c, hc, hr⟩
        exact ⟨c, (hX c hc).1, hl c hc, hr⟩
  refine hrounds _ _ fun b hb => ?_
  have hi : b.index < h.size := of_decide_eq_true (hX b hb).1
  simp [Array.getD, hi]

/-! ## Releases -/

theorem contains_release (h : Heap) (roots : List Address) (a : Address) :
    (h.release roots).contains a = h.contains a := by
  rw [release_eq_unlink, contains, size_unlink, contains]

/-- A release leaves links to what lives. -/
theorem lives_of_proto_release {a p : Address}
    (hp : ((h.release roots).get a).proto = some p) :
    (h.get a).proto = some p ∧ h.Lives roots p := by
  rw [release_eq_unlink, get_unlink] at hp
  exact Option.filter_eq_some_iff.mp hp

theorem proto_release_iff {a p : Address} : ((h.release roots).get a).proto = some p ↔
    (h.get a).proto = some p ∧ h.Lives roots p := by
  refine ⟨lives_of_proto_release, fun hp => ?_⟩
  rw [release_eq_unlink, get_unlink]
  exact Option.filter_eq_some_iff.mpr hp

/-- A release changes nothing but links. -/
theorem get_release (h : Heap) (roots : List Address) (a : Address) :
    (h.release roots).get a = { h.get a with proto := ((h.release roots).get a).proto } := by
  rw [release_eq_unlink, get_unlink]

/-- Where more is referred to and held, more lives. -/
theorem Lives.mono {h' : Heap} {roots' : List Address} (hsize : h'.size = h.size)
    (hroots : ∀ a ∈ roots, a ∈ roots')
    (hrefs : ∀ b, ∀ a ∈ (h.get b).references, a ∈ roots' ∨ a ∈ (h'.get b).references)
    {a : Address} (ha : h.Lives roots a) : h'.Lives roots' a := by
  refine Supported.lives (X := h.Lives roots) (fun c hc => ?_) ha
  obtain ⟨hin, hheld⟩ := supported_lives c hc
  refine ⟨by rw [contains, hsize]; exact hin, ?_⟩
  rcases hheld with hroot | ⟨b, hb, hr⟩
  · exact .inl (hroots c hroot)
  · exact (hrefs b c hr).imp_right fun hr' => ⟨b, hb, hr'⟩

/-- A release changes nothing that an object refers to. -/
theorem references_release (h : Heap) (roots : List Address) (a : Address) :
    ((h.release roots).get a).references = (h.get a).references := by
  rw [release_eq_unlink, get_unlink]
  rfl

/-- When all links lead to what lives, there is nothing to cut. -/
theorem release_eq_self (hl : ∀ a p, (h.get a).proto = some p → h.Lives roots p) :
    h.release roots = h := by
  rw [release_eq_unlink]
  refine unlink_of_all (Array.all_eq_true.mpr fun i hi => ?_)
  rw [Option.all_eq_true]
  intro p hp
  refine hl ⟨i⟩ p ?_
  rw [get_eq_getElem hi]
  exact hp

/-- An object that was just made may be let go when what it refers to is held on: no link
leads to it yet, and nothing else hangs on it. -/
theorem release_release_alloc (hh : h.Acyclic) {o : Object} {roots' : List Address}
    (hroots : ∀ a ∈ roots, a ∈ roots' ∨ a = h.next)
    (hrefs : ∀ a ∈ o.references, a ∈ roots') :
    ((h.alloc o).release roots).release roots' = (h.alloc o).release roots := by
  -- What lives apart from the new object is held by the new roots, or from within.
  have hsupported : ((h.alloc o).release roots).Supported roots'
      fun a => (h.alloc o).Lives roots a ∧ (a = h.next → a ∈ roots') := by
    rintro a ⟨ha, hnew⟩
    obtain ⟨hin, hheld⟩ := supported_lives a ha
    refine ⟨(contains_release _ _ _).trans hin, ?_⟩
    rcases hheld with hroot | ⟨b, hb, hr⟩
    · exact .inl ((hroots a hroot).elim id hnew)
    · by_cases hbnew : b = h.next
      · subst hbnew
        rw [get_alloc_next] at hr
        exact .inl (hrefs a hr)
      · refine .inr ⟨b, ⟨hb, fun hbn => absurd hbn hbnew⟩, ?_⟩
        rw [references_release]
        exact hr
  refine release_eq_self fun a p hp => ?_
  obtain ⟨hlink, hlives⟩ := lives_of_proto_release hp
  refine hsupported.lives ⟨hlives, ?_⟩
  -- Links lead to objects that were there before.
  rintro rfl
  have hold : h.contains h.next = true := by
    rw [get_alloc] at hlink
    split at hlink
    · exact contains_of_link hlink
    · exact hh.linked a _ hlink
  rw [not_contains_next] at hold
  cases hold

end Heap
end ScriptModel
