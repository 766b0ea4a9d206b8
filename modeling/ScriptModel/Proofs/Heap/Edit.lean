import ScriptModel.Proofs.Heap.Locality
import ScriptModel.Proofs.Heap.Release
import ScriptModel.Proofs.Object.Edit

/-!
# Edits on the heap

An edit under one key of one object is seen by nothing that asks for another key. So two
edits under different keys, of one object or of two, leave the same properties in either
order. They leave the same prototypes too, also where what nothing holds is let go of after
each of them: an object that is held in the end was held in between.
-/

namespace ScriptModel
namespace Heap

/-- The heap with an edit made under a key of one object. -/
def edit (h : Heap) (o : Address) (k : Key) (e : Edit) : Heap :=
  h.set o (e.apply k (h.get o))

variable (h : Heap) (o : Address) (k : Key) (e : Edit)

theorem edit_keep : h.edit o k .keep = h := h.set_get o

theorem size_edit : (h.edit o k e).size = h.size := size_modify ..

theorem contains_edit (a : Address) : (h.edit o k e).contains a = h.contains a :=
  contains_modify ..

theorem get_edit (a : Address) : (h.edit o k e).get a =
    if a = o ∧ h.contains o = true then e.apply k (h.get a) else h.get a := by
  rw [edit, get_set]
  split
  · rename_i ha
    rw [ha.1]
  · rfl

/-- Nothing changes but properties. -/
theorem get_edit_eq (a : Address) :
    (h.edit o k e).get a = { h.get a with table := ((h.edit o k e).get a).table } := by
  rw [get_edit]
  split
  · exact e.apply_eq _ k
  · rfl

theorem proto_edit (a : Address) : ((h.edit o k e).get a).proto = (h.get a).proto := by
  rw [get_edit_eq]

/-- Nothing changes under another key. -/
theorem own?_edit_ne {l : Key} (hl : l ≠ k) (a : Address) :
    ((h.edit o k e).get a).own? l = (h.get a).own? l := by
  rw [get_edit]
  split
  · exact e.own?_apply_ne _ hl
  · rfl

theorem Acyclic.edit {h : Heap} (hh : h.Acyclic) : (h.edit o k e).Acyclic :=
  hh.of_fewer (h.size_edit o k e) fun a p hp => by rwa [proto_edit] at hp

/-- A look-up of another key does not notice the edit. -/
theorem looksSame_edit {l : Key} (hl : l ≠ k) (a : Address) :
    h.LooksSame (h.edit o k e) l a :=
  fun b _ => ⟨h.own?_edit_ne o k e hl b, fun _ => h.proto_edit o k e b⟩

/-! ## Two edits -/

variable (o' : Address) (k' : Key) (e' : Edit)

/-- The order of two edits matters to an object only where both are of it. -/
theorem get_edit_edit (a : Address) :
    ((h.edit o k e).edit o' k' e').get a = ((h.edit o' k' e').edit o k e).get a ∨
      (a = o ∧ a = o' ∧
        ((h.edit o k e).edit o' k' e').get a = e'.apply k' (e.apply k (h.get a)) ∧
        ((h.edit o' k' e').edit o k e).get a = e.apply k (e'.apply k' (h.get a))) := by
  simp only [get_edit, contains_edit]
  by_cases ha : a = o ∧ h.contains o = true
  · by_cases ha' : a = o' ∧ h.contains o' = true
    · rw [if_pos ha', if_pos ha, if_pos ha, if_pos ha']
      exact .inr ⟨ha.1, ha'.1, rfl, rfl⟩
    · rw [if_neg ha', if_neg ha']
      exact .inl rfl
  · rw [if_neg ha, if_neg ha]
    exact .inl rfl

section Order

variable {k k'} (hk : k ≠ k')
include hk

/-- Under different keys, every property is the same in either order. -/
theorem own?_edit_comm (a : Address) (l : Key) :
    (((h.edit o k e).edit o' k' e').get a).own? l =
      (((h.edit o' k' e').edit o k e).get a).own? l := by
  rcases h.get_edit_edit o k e o' k' e' a with hsame | ⟨_, _, hget, hget'⟩
  · rw [hsame]
  · rw [hget, hget']
    exact e.own?_apply_comm e' _ hk l

/-- The same keys are listed, unless both are new names of one object. -/
theorem keys_edit_comm (a : Address) :
    (((h.edit o k e).edit o' k' e').get a).keys = (((h.edit o' k' e').edit o k e).get a).keys ∨
      (a = o ∧ a = o' ∧ (h.get a).hasOwn k = false ∧ (h.get a).hasOwn k' = false ∧
        k.isName = true ∧ k'.isName = true ∧
        ∃ front, (((h.edit o k e).edit o' k' e').get a).keys = front ++ [k, k'] ∧
          (((h.edit o' k' e').edit o k e).get a).keys = front ++ [k', k]) := by
  rcases h.get_edit_edit o k e o' k' e' a with hsame | ⟨ha, ha', hget, hget'⟩
  · exact .inl (by rw [hsame])
  · rw [hget, hget']
    exact (e.keys_apply_comm e' (h.get a) hk).imp_right fun hnew => ⟨ha, ha', hnew⟩

theorem mem_references_edit_comm {a b : Address}
    (ha : a ∈ (((h.edit o k e).edit o' k' e').get b).references) :
    a ∈ (((h.edit o' k' e').edit o k e).get b).references := by
  rcases h.get_edit_edit o k e o' k' e' b with hsame | ⟨_, _, hget, hget'⟩
  · rwa [← hsame]
  · rw [hget] at ha
    rw [hget']
    exact e.mem_references_apply_comm e' _ hk ha

/-- The same objects live in either order. -/
theorem lives_edit_comm {roots : List Address} {a : Address}
    (ha : ((h.edit o k e).edit o' k' e').Lives roots a) :
    ((h.edit o' k' e').edit o k e).Lives roots a := by
  refine ha.mono ?_ (fun b hb => hb)
    fun b c hc => .inr (h.mem_references_edit_comm o e o' e' hk hc)
  simp only [size_edit]

end Order

/-! ## Edits and releases -/

/-- What a look-up finds after a release was found before. -/
theorem Finds.of_release {h : Heap} {roots : List Address} {a b : Address} {k : Key}
    {p : Property} (hf : (h.release roots).Finds k a b p) : h.Finds k a b p := by
  induction hf with
  | own hp => exact .own (by rwa [own?_release] at hp)
  | above hnone hproto _ ih =>
    exact .above (by rwa [own?_release] at hnone) (lives_of_proto_release hproto).1 ih

/-- A look-up does not notice a release if all that it visits lives. -/
theorem looksSame_release {h : Heap} {roots : List Address} {k : Key} {a : Address}
    (hlives : ∀ b, h.Visits k a b → h.Lives roots b) :
    h.LooksSame (h.release roots) k a := by
  refine fun b hb => ⟨own?_release h roots b k, fun hnone => ?_⟩
  cases hp : (h.get b).proto with
  | none =>
    rw [Option.eq_none_iff_forall_ne_some]
    intro p hp'
    rw [proto_release_iff, hp] at hp'
    exact nomatch hp'.1
  | some p => exact proto_release_iff.mpr ⟨hp, hlives p (hb.step hnone hp)⟩

/-- An edit after a release is the edit, but for links. -/
theorem get_edit_release (roots : List Address) (a : Address) :
    ((h.release roots).edit o k e).get a =
      { (h.edit o k e).get a with proto := ((h.release roots).get a).proto } := by
  rw [get_edit, get_edit, contains_release]
  split
  · rw [get_release, e.apply_withProto]
  · exact get_release ..

variable (roots between : List Address)

/-- One edit after the other, each with a release after it. -/
def editBoth : Heap := (((h.edit o k e).release between).edit o' k' e').release roots

/-- But for links, the releases make no difference. -/
theorem get_editBoth (a : Address) : (h.editBoth o k e o' k' e' roots between).get a =
    { ((h.edit o k e).edit o' k' e').get a with
      proto := ((h.editBoth o k e o' k' e' roots between).get a).proto } := by
  unfold editBoth
  rw [get_release, get_edit_release]

variable {roots between}

/-- The links that are left lead to what lives in the end: the first release, from which
more is held, and all that the second edit brings in, cuts no other link. -/
theorem proto_editBoth_iff (hroots : ∀ a ∈ roots, a ∈ between)
    (hrefs : ∀ a ∈ e'.references, a ∈ between ∨ a ∈ ((h.edit o k e).get o').references)
    {a p : Address} : ((h.editBoth o k e o' k' e' roots between).get a).proto = some p ↔
      (h.get a).proto = some p ∧ ((h.edit o k e).edit o' k' e').Lives roots p := by
  let hboth := (h.edit o k e).edit o' k' e'
  let hturn := ((h.edit o k e).release between).edit o' k' e'
  have hreferences : ∀ b, (hturn.get b).references = (hboth.get b).references := by
    intro b
    show (Heap.get _ b).references = _
    rw [get_edit_release]
    rfl
  have hsize : hturn.size = hboth.size := by
    simp only [hturn, hboth, size_edit, release_eq_unlink, size_unlink]
  have hend : hturn.Lives roots p ↔ hboth.Lives roots p := by
    refine ⟨fun hp => hp.mono hsize.symm (fun b hb => hb) fun b c hc => .inr ?_,
      fun hp => hp.mono hsize (fun b hb => hb) fun b c hc => .inr ?_⟩
    · rwa [← hreferences]
    · rwa [hreferences]
  have hbetween : hboth.Lives roots p → (h.edit o k e).Lives between p := by
    refine fun hp => hp.mono (size_edit ..).symm hroots fun b c hc => ?_
    have hc' : c ∈ (((h.edit o k e).edit o' k' e').get b).references := hc
    rw [get_edit] at hc'
    split at hc'
    · rename_i hb
      rw [hb.1] at hc' ⊢
      rcases e'.mem_references_apply _ hc' with hnew | hold
      · exact hrefs c hnew
      · exact .inr hold
    · exact .inr hc'
  unfold editBoth
  rw [proto_release_iff, proto_edit, proto_release_iff, proto_edit, hend]
  exact ⟨fun ⟨⟨hp, _⟩, hlives⟩ => ⟨hp, hlives⟩,
    fun ⟨hp, hlives⟩ => ⟨⟨hp, hbetween hlives⟩, hlives⟩⟩

/-! ## Either order -/

theorem table_editBoth (a : Address) :
    ((h.editBoth o k e o' k' e' roots between).get a).table =
    (((h.edit o k e).edit o' k' e').get a).table := by
  rw [get_editBoth]

section Order

variable {between' : List Address} {k k'} (hk : k ≠ k')
include hk

theorem own?_editBoth_comm (a : Address) (l : Key) :
    ((h.editBoth o' k' e' o k e roots between').get a).own? l =
      ((h.editBoth o k e o' k' e' roots between).get a).own? l := by
  rw [Object.own?, Object.own?, table_editBoth, table_editBoth]
  exact (h.own?_edit_comm o e o' e' hk a l).symm

theorem keys_editBoth_comm (a : Address) :
    ((h.editBoth o' k' e' o k e roots between').get a).keys =
        ((h.editBoth o k e o' k' e' roots between).get a).keys ∨
      (a = o ∧ a = o' ∧ (h.get a).hasOwn k = false ∧ (h.get a).hasOwn k' = false ∧
        k.isName = true ∧ k'.isName = true ∧
        ∃ front, ((h.editBoth o k e o' k' e' roots between).get a).keys = front ++ [k, k'] ∧
          ((h.editBoth o' k' e' o k e roots between').get a).keys = front ++ [k', k]) := by
  simp only [Object.keys, table_editBoth]
  exact (h.keys_edit_comm o e o' e' hk a).imp_left Eq.symm

/-- Each order holds between the edits what the second one is going to bring in. Then all
links are the same in the end, and nothing differs but the order of the keys. -/
theorem get_editBoth_comm (hroots : ∀ a ∈ roots, a ∈ between)
    (hroots' : ∀ a ∈ roots, a ∈ between')
    (hrefs : ∀ a ∈ e'.references, a ∈ between ∨ a ∈ ((h.edit o k e).get o').references)
    (hrefs' : ∀ a ∈ e.references, a ∈ between' ∨ a ∈ ((h.edit o' k' e').get o).references)
    (a : Address) : (h.editBoth o' k' e' o k e roots between').get a =
      { (h.editBoth o k e o' k' e' roots between).get a with
        table := ((h.editBoth o' k' e' o k e roots between').get a).table } := by
  have hproto : ((h.editBoth o' k' e' o k e roots between').get a).proto =
      ((h.editBoth o k e o' k' e' roots between).get a).proto := by
    refine Option.ext fun p => ?_
    rw [proto_editBoth_iff _ _ _ _ _ _ _ hroots hrefs,
      proto_editBoth_iff _ _ _ _ _ _ _ hroots' hrefs']
    exact and_congr_right fun _ => ⟨lives_edit_comm _ _ _ _ _ (Ne.symm hk),
      lives_edit_comm _ _ _ _ _ hk⟩
  rw [table_editBoth, get_editBoth, hproto, get_editBoth h o k e, get_edit_eq,
    get_edit_eq h o' k', get_edit_eq (h.edit o k e), get_edit_eq h o k]

end Order

end Heap
end ScriptModel
