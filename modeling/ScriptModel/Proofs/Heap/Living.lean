import ScriptModel.Proofs.Heap.Update

/-!
# What keeps objects alive

An object is retained by some roots when it is one of them, or when something retained is a
function that refers to it. What a function refers to never changes, so retention is for
good as long as the roots are there. Roots that retain one another keep the same objects
alive, whatever else the objects on the heap refer to.
-/

namespace ScriptModel

/-- The addresses that an object keeps alive for as long as it lives itself. -/
def Object.fixedReferences (o : Object) : List Address :=
  match o.callable with
  | none => []
  | some c => c.references

theorem Object.mem_references_of_fixed {o : Object} {a : Address}
    (ha : a ∈ o.fixedReferences) : a ∈ o.references := List.mem_append_right _ ha

namespace Heap

/-- The address is a root, or a function that is retained refers to it. -/
inductive Retained (h : Heap) (roots : List Address) : Address → Prop where
  | root {a : Address} : a ∈ roots → h.Retained roots a
  | through {a b : Address} :
    h.Retained roots b → a ∈ (h.get b).fixedReferences → h.Retained roots a

/-- What more roots retain. -/
theorem Retained.mono {h : Heap} {roots more : List Address}
    (hsub : ∀ a ∈ roots, h.Retained more a)
    {a : Address} (ha : h.Retained roots a) : h.Retained more a := by
  induction ha with
  | root ha => exact hsub _ ha
  | through _ hr ih => exact .through ih hr

/-- A function is retained only where there is one. -/
theorem contains_of_fixedReferences {h : Heap} {a b : Address}
    (ha : a ∈ (h.get b).fixedReferences) : h.contains b = true := by
  cases hb : h.contains b with
  | true => rfl
  | false =>
    rw [get_of_not_contains hb] at ha
    cases ha

/-! ## What is marked -/

theorem size_mark (marks : Array Bool) (as : List Address) :
    (mark marks as).size = marks.size := by
  induction as generalizing marks with
  | nil => rfl
  | cons a as ih =>
    unfold mark at ih ⊢
    rw [List.foldl_cons, ih, Array.size_setIfInBounds]

theorem getD_mark (marks : Array Bool) (as : List Address) (a : Address) :
    (mark marks as).getD a.index false = true ↔
      marks.getD a.index false = true ∨ (a.index < marks.size ∧ a ∈ as) := by
  induction as generalizing marks with
  | nil => simp [mark]
  | cons b as ih =>
    have hcons : mark marks (b :: as) = mark (marks.setIfInBounds b.index true) as := rfl
    rw [hcons, ih, Array.size_setIfInBounds]
    by_cases hab : a = b
    · subst hab
      by_cases hin : a.index < marks.size <;> simp [Array.getD, hin]
    · have hindex : b.index ≠ a.index := fun hi => hab (by cases a; cases b; simp_all)
      by_cases hin : a.index < marks.size <;>
        simp [Array.getD, hin, hindex, hab]

/-- One object after another marks what it refers to, if it is counted as living. -/
theorem getD_foldl_mark (h : Heap) (living marks : Array Bool) (is : List Nat)
    (a : Address) :
    (is.foldl (fun m i => if living.getD i false then mark m (h.get ⟨i⟩).references else m)
        marks).getD a.index false = true ↔
      marks.getD a.index false = true ∨ (a.index < marks.size ∧
        ∃ i ∈ is, living.getD i false = true ∧ a ∈ (h.get ⟨i⟩).references) := by
  induction is generalizing marks with
  | nil => simp
  | cons i is ih =>
    rw [List.foldl_cons, ih]
    simp only [List.mem_cons, or_and_right, exists_or, exists_eq_left]
    cases hl : living.getD i false with
    | false => simp only [Bool.false_eq_true, if_false, false_and, false_or]
    | true =>
      simp only [if_true, getD_mark, size_mark, true_and, and_or_left, or_assoc]

theorem size_foldl_mark (h : Heap) (living marks : Array Bool) (is : List Nat) :
    (is.foldl (fun m i => if living.getD i false then mark m (h.get ⟨i⟩).references else m)
        marks).size = marks.size := by
  induction is generalizing marks with
  | nil => rfl
  | cons i is ih =>
    rw [List.foldl_cons, ih]
    split
    · exact size_mark _ _
    · rfl

@[simp] theorem size_heldBy (h : Heap) (roots : List Address) (living : Array Bool) :
    (h.heldBy roots living).size = h.size := by
  unfold heldBy
  rw [size_foldl_mark, size_mark, Array.size_replicate]

/-- An object is held by a root or by an object that counts as living. -/
theorem getD_heldBy {h : Heap} {roots : List Address} {living : Array Bool} {a : Address} :
    (h.heldBy roots living).getD a.index false = true ↔
      h.contains a = true ∧ (a ∈ roots ∨
        ∃ b, h.contains b = true ∧ living.getD b.index false = true ∧
          a ∈ (h.get b).references) := by
  unfold heldBy
  rw [getD_foldl_mark, getD_mark, size_mark, Array.size_replicate]
  have hnone : (Array.replicate h.size false).getD a.index false = false := by
    unfold Array.getD
    split
    · exact Array.getElem_replicate ..
    · rfl
  simp only [hnone, Bool.false_eq_true, false_or, contains, decide_eq_true_eq,
    List.mem_range]
  constructor
  · rintro (⟨hi, ha⟩ | ⟨hi, i, hlt, hl, hr⟩)
    · exact ⟨hi, .inl ha⟩
    · exact ⟨hi, .inr ⟨⟨i⟩, hlt, hl, hr⟩⟩
  · rintro ⟨hi, ha | ⟨b, hlt, hl, hr⟩⟩
    · exact .inl ⟨hi, ha⟩
    · exact .inr ⟨hi, b.index, hlt, hl, hr⟩

/-! ## Roots that retain one another -/

/-- All that the roots retain counts as living. -/
def Covers (h : Heap) (roots : List Address) (living : Array Bool) : Prop :=
  ∀ a, h.Retained roots a → h.contains a = true → living.getD a.index false = true

theorem Covers.heldBy {h : Heap} {roots : List Address} {living : Array Bool}
    (hc : h.Covers roots living) : h.Covers roots (h.heldBy roots living) := by
  intro a ha hin
  refine getD_heldBy.mpr ⟨hin, ?_⟩
  cases ha with
  | root ha => exact .inl ha
  | @through a b hb hr =>
    have hbin := contains_of_fixedReferences hr
    exact .inr ⟨b, hbin, hc b hb hbin, Object.mem_references_of_fixed hr⟩

variable {h : Heap} {roots roots' : List Address} (hsub : ∀ a ∈ roots, h.Retained roots' a)
include hsub

theorem getD_heldBy_of_retained {living : Array Bool} (hc : h.Covers roots' living)
    {a : Address} (ha : (h.heldBy roots living).getD a.index false = true) :
    (h.heldBy roots' living).getD a.index false = true := by
  obtain ⟨hin, ha | hl⟩ := getD_heldBy.mp ha
  · exact hc.heldBy a (hsub a ha) hin
  · exact getD_heldBy.mpr ⟨hin, .inr hl⟩

variable (hsub' : ∀ a ∈ roots', h.Retained roots a)
include hsub'

theorem heldBy_congr {living : Array Bool} (hc : h.Covers roots living) :
    h.heldBy roots living = h.heldBy roots' living := by
  -- The roots retain the same, so both searches start this stage with all of it.
  have hc' : h.Covers roots' living := fun a ha => hc a (ha.mono hsub')
  refine Array.ext (by simp) fun i hi hi' => ?_
  have hiff : (h.heldBy roots living).getD i false = true ↔
      (h.heldBy roots' living).getD i false = true :=
    ⟨getD_heldBy_of_retained hsub hc' (a := ⟨i⟩), getD_heldBy_of_retained hsub' hc (a := ⟨i⟩)⟩
  simp only [Array.getD, hi, hi', dite_true] at hiff
  exact Bool.eq_iff_iff.mpr hiff

/-- Roots that retain one another keep the same objects alive. At every stage of the search
all that they retain still counts as living, so the stages are the same. -/
theorem living_congr : h.living roots = h.living roots' := by
  have hstages : ∀ (n : Nat) (living : Array Bool), h.Covers roots living →
      h.settle roots n living = h.settle roots' n living := by
    intro n
    induction n with
    | zero => exact fun _ _ => rfl
    | succ n ih =>
      intro living hc
      simp only [settle]
      rw [← heldBy_congr hsub hsub' hc, ih _ hc.heldBy]
  refine hstages _ _ fun a _ hin => ?_
  have hi : a.index < h.size := of_decide_eq_true hin
  simp [Array.getD, hi]

theorem release_congr : h.release roots = h.release roots' := by
  unfold release
  rw [living_congr hsub hsub']

end Heap
end ScriptModel
