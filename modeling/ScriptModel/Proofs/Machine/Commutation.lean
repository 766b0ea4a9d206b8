import ScriptModel.Proofs.Heap.Edit
import ScriptModel.Proofs.Machine.KeyOrder

/-!
# Requests under different keys commute

A definition, a deletion, or a write that no setter takes, is one edit under its key. Which
edit, and how it ends, depends on little: what the object has under the key, whether it
takes properties, and whether something above it is in the way. An edit under another key
changes none of this. But it may take away the last hold on a prototype, and what is let go
of is no longer in the way of anything. Where that does not happen, two requests come to the
same in either order.
-/

namespace ScriptModel

/-! ## What a definition brings in -/

namespace Property

variable {p : Property} {a : Address}

theorem mem_references_of_value (ha : p.value.address? = some a) : a ∈ p.references := by
  cases p with
  | data d => exact Option.mem_toList.mpr ha
  | accessor g => cases ha

theorem mem_references_of_function (ha : a ∈ p.getter.toList ∨ a ∈ p.setter.toList) :
    a ∈ p.references := by
  cases p with
  | data d => rcases ha with ha | ha <;> cases ha
  | accessor g => exact List.mem_append.mpr ha

end Property

/-- The addresses that a fragment names. -/
def Fragment.references (f : Fragment) : List Address :=
  (f.value.bind Value.address?).toList ++ (f.getter.join.toList ++ f.setter.join.toList)

/-- What is merged refers to what the fragment names, or to what the property refers to. -/
theorem Fragment.mem_references_merged {f : Fragment} {p : Property} {a : Address}
    (ha : a ∈ (f.merged p).references) : a ∈ f.references ∨ a ∈ p.references := by
  -- A function that the fragment names takes the place of the property's own.
  have hfunction : ∀ {field : Option (Option Address)} {own : Option Address},
      a ∈ (field.getD own).toList → a ∈ field.join.toList ∨ a ∈ own.toList := by
    rintro (_ | field) own hmem
    · exact .inr hmem
    · exact .inl hmem
  cases hk : f.mergedKind p with
  | data =>
    rw [merged_data hk] at ha
    have hvalue : (f.value.getD p.value).address? = some a := Option.mem_toList.mp ha
    cases hv : f.value with
    | some v =>
      rw [hv] at hvalue
      refine .inl (List.mem_append_left _ (Option.mem_toList.mpr ?_))
      rw [hv]
      exact hvalue
    | none =>
      rw [hv] at hvalue
      exact .inr (Property.mem_references_of_value hvalue)
  | accessor =>
    rw [merged_accessor hk] at ha
    rcases List.mem_append.mp ha with hget | hset
    · exact (hfunction hget).imp (fun h => List.mem_append_right _ (List.mem_append_left _ h))
        fun h => Property.mem_references_of_function (.inl h)
    · exact (hfunction hset).imp (fun h => List.mem_append_right _ (List.mem_append_right _ h))
        fun h => Property.mem_references_of_function (.inr h)

namespace Object

variable {o o' : Object} {k : Key} {f : Fragment} {overrides : Bool}

/-- A definition goes by what is under the key and by whether the object takes
properties. -/
theorem merge_congr (hown : o'.own? k = o.own? k) (hopen : o'.extensible = o.extensible)
    (f : Fragment) (overrides : Bool) : o'.merge k f overrides = o.merge k f overrides := by
  rw [merge, merge, hown, hopen]

/-- What it writes refers to what the fragment names, or to what was referred to under the
key. -/
theorem mem_references_merge {p : Property} {a : Address}
    (hm : o.merge k f overrides = .ok (some p)) (ha : a ∈ p.references) :
    a ∈ f.references ∨ ∃ q, o.own? k = some q ∧ a ∈ q.references := by
  unfold merge at hm
  split at hm
  · split at hm
    · cases hm
      rw [Fragment.create_eq] at ha
      exact (Fragment.mem_references_merged ha).imp_right fun habsent => nomatch habsent
    · cases hm
  · rename_i q hown
    split at hm
    · cases hm
    · split at hm
      · cases hm
        rw [Fragment.write_base] at ha
        exact (Fragment.mem_references_merged ha).imp_right fun hq => ⟨q, hown, hq⟩
      · cases hm

end Object

/-! ## Computations that are one edit -/

/-- The heaps agree on what the object has under the key and on whether it takes
properties. -/
structure Heap.Resembles (h h' : Heap) (o : Address) (k : Key) : Prop where
  own : (h'.get o).own? k = (h.get o).own? k
  extensible : (h'.get o).extensible = (h.get o).extensible

theorem Heap.Resembles.refl (h : Heap) (o : Address) (k : Key) : h.Resembles h o k :=
  ⟨rfl, rfl⟩

namespace Run

open Machine

/-- The computation ends as said and makes the edit, and apart from that only the trace
shows it. -/
structure Edits (x : Run Bool) (o : Address) (k : Key) (out : Outcome Bool) (e : Edit)
    (s : Machine) : Prop where
  outcome : (x s).1 = out
  heap : (x s).2.heap = s.heap.edit o k e
  rest : (x s).2 = { s with heap := (x s).2.heap, trace := (x s).2.trace }

/-- On every machine that resembles this one, the computation ends alike and makes the same
edit. It brings in nothing but what is given and what was under the key. -/
def EditsAlike (x : Run Bool) (o : Address) (k : Key) (given : List Address)
    (s : Machine) : Prop :=
  ∃ out e, (∀ a ∈ e.references,
      a ∈ given ∨ ∃ p, (s.heap.get o).own? k = some p ∧ a ∈ p.references) ∧
    ∀ t : Machine, s.heap.Resembles t.heap o k → x.Edits o k out e t

variable {x y : Run Bool} {o : Address} {k : Key} {s : Machine}

/-- A refusal leaves everything as it is. -/
theorem edits_of_reject (overrides throws : Bool) (ex : Exception)
    (hx : x s = reject throws ex (s.noting o overrides)) :
    x.Edits o k (if throws then .raised ex else .done false) .keep s where
  outcome := by
    rw [hx]
    cases throws <;> rfl
  heap := by rw [hx, machine_reject, heap_noting, Heap.edit_keep]
  rest := by
    rw [hx, machine_reject]
    cases overrides <;> rfl

theorem edits_of_done (overrides : Bool) {e : Edit}
    (hx : x s = (.done true, (s.noting o overrides).withHeap (s.heap.edit o k e))) :
    x.Edits o k (.done true) e s where
  outcome := by rw [hx]
  heap := by
    rw [hx]
    rfl
  rest := by
    rw [hx]
    cases overrides <;> rfl

/-- What is left of the machine when nothing but the roots and what is in hand is held on
to. -/
theorem Edits.sweep {out : Outcome Bool} {e : Edit} (h : x.Edits o k out e s)
    (inHand : List Value) : (x s).2.sweep inHand = { s with
      heap := (s.heap.edit o k e).release (s.roots ++ inHand.filterMap Value.address?)
      trace := (x s).2.trace } := by
  obtain ⟨-, hheap, hrest⟩ := h
  generalize (x s).2 = t at hheap hrest ⊢
  have hroots : t.roots = s.roots := by
    rw [hrest]
    rfl
  rw [Machine.sweep, hroots, hheap, hrest]
  rfl

/-- Many edits bring in nothing. -/
theorem EditsAlike.of_bare {out : Outcome Bool} {e : Edit} {given : List Address}
    (he : e.references = [])
    (hall : ∀ t : Machine, s.heap.Resembles t.heap o k → x.Edits o k out e t) :
    x.EditsAlike o k given s := by
  refine ⟨out, e, fun a ha => ?_, hall⟩
  rw [he] at ha
  cases ha

/-- On machines that resemble this one, one computation may stand for another. -/
theorem EditsAlike.congr {given : List Address} (hy : y.EditsAlike o k given s)
    (h : ∀ t : Machine, s.heap.Resembles t.heap o k → x t = y t) :
    x.EditsAlike o k given s := by
  obtain ⟨out, e, hgiven, hall⟩ := hy
  refine ⟨out, e, hgiven, fun t ht => ?_⟩
  obtain ⟨hout, hheap, hrest⟩ := hall t ht
  rw [← h t ht] at hout hheap hrest
  exact ⟨hout, hheap, hrest⟩

variable (o k s) (throws : Bool)

theorem editsAlike_reject (ex : Exception) (given : List Address) :
    (reject throws ex).EditsAlike o k given s :=
  .of_bare rfl fun _ _ => edits_of_reject false throws ex rfl

theorem editsAlike_define (f : Fragment) (overrides : Bool) :
    (define o k f throws overrides).EditsAlike o k f.references s := by
  have hmerge : ∀ t : Machine, s.heap.Resembles t.heap o k →
      (t.heap.get o).merge k f overrides = (s.heap.get o).merge k f overrides :=
    fun t ht => Object.merge_congr ht.own ht.extensible f overrides
  cases hm : (s.heap.get o).merge k f overrides with
  | error ex =>
    refine .of_bare rfl fun t ht => edits_of_reject overrides throws ex ?_
    rw [define_apply, Object.define, hmerge t ht, hm]
  | ok written =>
    cases written with
    | none =>
      refine .of_bare (e := .keep) rfl fun t ht => edits_of_done overrides ?_
      rw [define_apply, Object.define, hmerge t ht, hm]
      rfl
    | some p =>
      refine ⟨_, .write p, fun a ha => Object.mem_references_merge hm ha,
        fun t ht => edits_of_done overrides ?_⟩
      rw [define_apply, Object.define, hmerge t ht, hm]
      rfl

theorem editsAlike_delete (given : List Address) :
    (delete o k throws).EditsAlike o k given s := by
  cases hown : (s.heap.get o).own? k with
  | none =>
    refine .of_bare (e := .keep) rfl fun t ht => edits_of_done false ?_
    rw [delete, Object.delete, ht.own, hown]
    rfl
  | some p =>
    cases hp : p.configurable with
    | true =>
      refine .of_bare (e := .erase) rfl fun t ht => edits_of_done false ?_
      rw [delete, Object.delete, ht.own, hown]
      simp only [hp, if_true]
      rfl
    | false =>
      refine .of_bare rfl fun t ht =>
        edits_of_reject false throws (.cannotDelete k) ?_
      rw [delete, Object.delete, ht.own, hown]
      simp only [hp, Bool.false_eq_true, if_false]
      rfl

theorem editsAlike_add (v : Value) (overrides : Bool) :
    (add o k v throws overrides).EditsAlike o k v.address?.toList s := by
  by_cases hopen : ((s.heap.get o).extensible || overrides) = true
  · have hreferences :
        (Fragment.data v true (!overrides) true).references = v.address?.toList :=
      List.append_nil _
    rw [← hreferences]
    refine (editsAlike_define o k s throws _ overrides).congr fun t ht => ?_
    rw [add, ht.extensible, if_pos hopen]
  · refine (editsAlike_reject o k s throws (.cannotAdd k) _).congr fun t ht => ?_
    rw [add, ht.extensible, if_neg hopen]

end Run

/-! ## Requests -/

namespace PropertyRequest

def key : PropertyRequest → Key
  | define k _ _ _ => k
  | put k _ _ _ => k
  | delete k _ => k

/-- The addresses that the request names, apart from the object. -/
def references : PropertyRequest → List Address
  | define _ f _ _ => f.references
  | put _ v _ _ => v.address?.toList
  | delete _ _ => []

/-- A write is refused because of what the object has above it: an accessor, or a read-only
property that is not overridden. -/
def Barred (o : Address) (h : Heap) : PropertyRequest → Prop
  | put k _ _ overrides => ∃ b p, b ≠ o ∧ h.Finds k o b p ∧
      ∀ d, p = .data d → d.writable = false ∧ overrides = false
  | _ => False

/-- The second heap is no different for the request: it resembles the first, and what is
above the object is in the way in both or in neither. -/
structure Unaffected (r : PropertyRequest) (o : Address) (h h' : Heap) : Prop
    extends h.Resembles h' o r.key where
  acyclic : h'.Acyclic
  barred : r.Barred o h → ∀ b p, h.Finds r.key o b p → h'.Finds r.key o b p
  free : r.Barred o h' → r.Barred o h

variable {s : Machine} {o : Address} {r : PropertyRequest} (inv : Invoker)

/-- A write that no setter takes, on all machines that are no different for it. -/
theorem editsAlike_put {k : Key} {v : Value} {throws overrides : Bool} (hh : s.heap.Acyclic)
    (hdirect : Direct o s.heap (put k v throws overrides)) :
    ∃ x : Run Bool, x.EditsAlike o k v.address?.toList s ∧
      ∀ t : Machine, (put k v throws overrides).Unaffected o s.heap t.heap →
        inv.put o k v throws overrides t = x t := by
  cases hown : (s.heap.get o).own? k with
  | some p =>
    -- Its own property decides, wherever the object is.
    have hfind : ∀ t : Machine, (put k v throws overrides).Unaffected o s.heap t.heap →
        t.heap.find? o k = some (o, p) := fun t ht => Heap.find?_of_own (ht.own.trans hown)
    cases p with
    | accessor g =>
      refine ⟨_, Run.editsAlike_reject o k s throws (.getterOnly k) _, fun t ht => ?_⟩
      exact Invoker.put_of_getterOnly inv v throws overrides (hfind t ht)
        (hdirect o g (Heap.find?_of_own hown))
    | data d =>
      by_cases hd : (d.writable || (overrides && d.configurable)) = true
      · have hreferences : (Fragment.valueOnly v).references = v.address?.toList :=
          List.append_nil _
        refine ⟨_, hreferences ▸ Run.editsAlike_define o k s throws (.valueOnly v) overrides,
          fun t ht => ?_⟩
        rw [Invoker.put_of_find? inv (hfind t ht)]
        simp only [if_true, if_pos hd]
      · refine ⟨_, Run.editsAlike_reject o k s throws (.readOnly k) _, fun t ht => ?_⟩
        rw [Invoker.put_of_find? inv (hfind t ht)]
        simp only [if_true, if_neg hd]
  | none =>
    by_cases hbarred : Barred o s.heap (put k v throws overrides)
    · obtain ⟨b, p, hne, hfinds, hlocked⟩ := id hbarred
      have hfind : ∀ t : Machine, (put k v throws overrides).Unaffected o s.heap t.heap →
          t.heap.find? o k = some (b, p) := fun t ht =>
        ht.acyclic.find?_iff.mpr (ht.barred hbarred b p hfinds)
      cases p with
      | accessor g =>
        refine ⟨_, Run.editsAlike_reject o k s throws (.getterOnly k) _, fun t ht => ?_⟩
        exact Invoker.put_of_getterOnly inv v throws overrides (hfind t ht)
          (hdirect b g (hh.find?_iff.mpr hfinds))
      | data d =>
        obtain ⟨hw, hoverrides⟩ := hlocked d rfl
        refine ⟨_, Run.editsAlike_reject o k s throws (.readOnly k) _, fun t ht => ?_⟩
        exact Invoker.put_of_inherited_readOnly inv v throws overrides hne (hfind t ht)
          hw hoverrides
    · refine ⟨_, Run.editsAlike_add o k s throws v overrides, fun t ht => ?_⟩
      have hnone : (t.heap.get o).own? k = none := ht.own.trans hown
      refine Invoker.put_of_free inv v throws overrides hnone fun b p hfind => ?_
      have hfinds := ht.acyclic.find?_iff.mp hfind
      have hpass : ¬ ∀ d, p = .data d → d.writable = false ∧ overrides = false :=
        fun hlocked =>
        hbarred (ht.free ⟨b, p, hfinds.ne_of_own hnone, hfinds, hlocked⟩)
      simp only [not_forall] at hpass
      obtain ⟨d, hd, hopen⟩ := hpass
      refine ⟨d, hd, ?_⟩
      simpa [imp_iff_not_or] using hopen

/-- A request that no setter takes ends alike and makes the same edit on all machines that
are no different for it. -/
theorem edits_alike (hh : s.heap.Acyclic) (hdirect : r.Direct o s.heap) :
    ∃ out e, (∀ a ∈ e.references, a ∈ r.references ∨
        ∃ p, (s.heap.get o).own? r.key = some p ∧ a ∈ p.references) ∧
      ∀ t : Machine, r.Unaffected o s.heap t.heap →
        (r.run inv o).Edits o r.key out e t := by
  have hplain : ∃ x : Run Bool, x.EditsAlike o r.key r.references s ∧
      ∀ t : Machine, r.Unaffected o s.heap t.heap → r.run inv o t = x t := by
    cases r with
    | define k f throws overrides =>
      exact ⟨_, Run.editsAlike_define o k s throws f overrides, fun _ _ => rfl⟩
    | put k v throws overrides => exact editsAlike_put inv hh hdirect
    | delete k throws => exact ⟨_, Run.editsAlike_delete o k s throws _, fun _ _ => rfl⟩
  obtain ⟨x, ⟨out, e, hgiven, hall⟩, hx⟩ := hplain
  refine ⟨out, e, hgiven, fun t ht => ?_⟩
  obtain ⟨hout, hheap, hrest⟩ := hall t ht.toResembles
  rw [← hx t ht] at hout hheap hrest
  exact ⟨hout, hheap, hrest⟩

/-! ## One request after the other -/

/-- What someone who is going to make the request holds. -/
def inHand (r : PropertyRequest) (o : Address) : List Value :=
  (o :: r.references).map Value.object

/-- One request and then the other. After the first, what nothing holds is let go of, but
not what the second is about; after the second, all that nothing holds. -/
def inTurn (r : PropertyRequest) (o : Address) (r' : PropertyRequest) (o' : Address)
    (s : Machine) :
    Outcome Bool × Outcome Bool × Machine :=
  let first := r.run inv o s
  let second := r'.run inv o' (first.2.sweep (r'.inHand o'))
  (first.1, second.1, second.2.sweep [])

/-- Where something above the object is in the way of the request, all that a look-up comes
by on the way there lives on the machine given. -/
def Spared (r : PropertyRequest) (o : Address) (h : Heap) (t : Machine) : Prop :=
  r.Barred o h → ∀ a, h.Visits r.key o a → t.heap.Lives (t.roots ++ o :: r.references) a

theorem Unaffected.refl (hh : s.heap.Acyclic) : r.Unaffected o s.heap s.heap where
  toResembles := .refl _ _ _
  acyclic := hh
  barred _ _ _ hf := hf
  free hb := hb

/-- A request under another key, and a release that spares what is in the way, make no
difference. -/
theorem unaffected_edit_release {h : Heap} (hh : h.Acyclic) {o' : Address} {k : Key}
    {e : Edit} {roots : List Address} (hk : r.key ≠ k) (hspared : r.Barred o h →
      ∀ a, h.Visits r.key o a → (h.edit o' k e).Lives roots a) :
    r.Unaffected o h ((h.edit o' k e).release roots) := by
  have hedit := h.looksSame_edit o' k e hk
  refine ⟨⟨?_, ?_⟩, (hh.edit o' k e).release roots, fun hbarred b p hf => ?_,
    fun hbarred => ?_⟩
  · rw [Heap.own?_release, h.own?_edit_ne o' k e hk]
  · rw [Heap.get_release, h.get_edit_eq]
  · have hrelease := Heap.looksSame_release (k := r.key) (a := o) fun a ha =>
      hspared hbarred a ((hedit o).visits_iff.mp ha)
    exact hrelease.finds_iff.mpr ((hedit o).finds_iff.mpr hf)
  · cases r with
    | put k v throws overrides =>
      obtain ⟨b, p, hne, hf, hlocked⟩ := hbarred
      exact ⟨b, p, hne, (hedit o).finds_iff.mp hf.of_release, hlocked⟩
    | define k f throws overrides => exact hbarred.elim
    | delete k throws => exact hbarred.elim

/-- The two requests are two edits, with a release after each. -/
theorem inTurn_edits {r' : PropertyRequest} {o' : Address} (hh : s.heap.Acyclic)
    (hk : r.key ≠ r'.key) {out out' : Outcome Bool} {e e' : Edit}
    (hfirst : (r.run inv o).Edits o r.key out e s)
    (hsecond : ∀ t : Machine, r'.Unaffected o' s.heap t.heap →
      (r'.run inv o').Edits o' r'.key out' e' t)
    (hspared : r'.Spared o' s.heap (r.run inv o s).2) :
    ∃ trace, inTurn inv r o r' o' s = (out, out', { s with
      heap := s.heap.editBoth o r.key e o' r'.key e' s.roots
        (s.roots ++ o' :: r'.references)
      trace := trace }) := by
  have hroots : (r.run inv o s).2.roots = s.roots := by
    rw [hfirst.rest]
    rfl
  have haddresses : (r'.inHand o').filterMap Value.address? = o' :: r'.references := by
    rw [inHand, List.filterMap_map]
    exact List.filterMap_some
  have hbetween := hfirst.sweep (r'.inHand o')
  rw [haddresses] at hbetween
  have hunaffected : r'.Unaffected o' s.heap ((r.run inv o s).2.sweep (r'.inHand o')).heap := by
    rw [hbetween]
    refine unaffected_edit_release hh (Ne.symm hk) fun hbarred a ha => ?_
    have hlives := hspared hbarred a ha
    rwa [hroots, hfirst.heap] at hlives
  have hlast := hsecond _ hunaffected
  have hend := hlast.sweep []
  unfold inTurn
  dsimp only
  rw [hfirst.outcome, hlast.outcome, hend, hbetween]
  exact ⟨_, by rw [List.filterMap_nil, List.append_nil]; rfl⟩

end PropertyRequest

namespace Machine

/-- Two requests under different keys, of one object or of two, come to the same in either
order: each ends alike, every object has the same properties, the same prototype and takes
properties or not, and lists its keys in the same order, unless the two have made two names
on it; these come last, in the order of the requests. No setter may take a write. And where
something above an object is in the way of a write, the other request must not let go of
anything on the way there. -/
theorem requests_commute {l : Limits} {s : Machine} (hs : Reachable l s) (inv : Invoker)
    {r r' : PropertyRequest} {o o' : Address} (hk : r.key ≠ r'.key)
    (hdirect : r.Direct o s.heap) (hdirect' : r'.Direct o' s.heap)
    (hspared : r.Spared o s.heap (r'.run inv o' s).2)
    (hspared' : r'.Spared o' s.heap (r.run inv o s).2) :
    let x := r.inTurn inv o r' o' s
    let y := r'.inTurn inv o' r o s
    let t := x.2.2
    let u := y.2.2
    y.1 = x.2.1 ∧ y.2.1 = x.1 ∧
    (∀ a k, (u.heap.get a).own? k = (t.heap.get a).own? k) ∧
    (∀ a, u.heap.get a = { t.heap.get a with table := (u.heap.get a).table }) ∧
    (∀ a, (u.heap.get a).keys = (t.heap.get a).keys ∨
      (a = o ∧ a = o' ∧ (s.heap.get a).hasOwn r.key = false ∧
        (s.heap.get a).hasOwn r'.key = false ∧ r.key.isName = true ∧ r'.key.isName = true ∧
        ∃ front, (t.heap.get a).keys = front ++ [r.key, r'.key] ∧
          (u.heap.get a).keys = front ++ [r'.key, r.key])) ∧
    u = { t with heap := u.heap, trace := u.trace } := by
  have hh := hs.sound.acyclic
  obtain ⟨out, e, hgiven, hall⟩ := PropertyRequest.edits_alike inv hh hdirect
  obtain ⟨out', e', hgiven', hall'⟩ := PropertyRequest.edits_alike inv hh hdirect'
  obtain ⟨trace, hx⟩ :=
    PropertyRequest.inTurn_edits inv hh hk (hall s (.refl hh)) hall' hspared'
  obtain ⟨trace', hy⟩ :=
    PropertyRequest.inTurn_edits inv hh (Ne.symm hk) (hall' s (.refl hh)) hall hspared
  -- What an edit brings in is held while the other one is made.
  have hheld : ∀ {r r' : PropertyRequest} {o o' : Address} {e e' : Edit}, r.key ≠ r'.key →
      (∀ a ∈ e'.references, a ∈ r'.references ∨
        ∃ p, (s.heap.get o').own? r'.key = some p ∧ a ∈ p.references) →
      ∀ a ∈ e'.references, a ∈ s.roots ++ o' :: r'.references ∨
        a ∈ ((s.heap.edit o r.key e).get o').references := by
    intro r r' o o' e e' hk hgiven a ha
    rcases hgiven a ha with hnamed | ⟨p, hp, hap⟩
    · exact .inl (List.mem_append_right _ (List.mem_cons_of_mem _ hnamed))
    · rw [← s.heap.own?_edit_ne o r.key e (Ne.symm hk)] at hp
      exact .inr (Object.mem_references_of_own hp hap)
  simp only [hx, hy]
  refine ⟨trivial, trivial, fun a k => ?_, fun a => ?_, fun a => ?_, trivial⟩
  · exact s.heap.own?_editBoth_comm o e o' e' hk a k
  · exact s.heap.get_editBoth_comm o e o' e' hk (fun _ => List.mem_append_left _)
      (fun _ => List.mem_append_left _) (hheld hk hgiven') (hheld (Ne.symm hk) hgiven) a
  · exact s.heap.keys_editBoth_comm o e o' e' hk a

/-- A fresh machine on which Object.prototype has a read-only `k`. -/
def withReadOnly : Machine :=
  (Script.run 1 (fresh .standard)
    [.access (.define (.named "ObjectPrototype") (.ofString "k")
      ⟨.data, some (.constant .null), some false, none, none, some true, some true⟩
      false false)]).2

/-- What Object.prototype has is in the way of a write to Function.prototype, and lives
whatever else is made on Object.prototype. -/
theorem refused_write_commutes :
    let s := withReadOnly
    let write := PropertyRequest.put (.ofString "k") .null false false
    let other := PropertyRequest.put (.ofString "x") .null false false
    let x := write.inTurn (dispatch 1) .functionPrototype other .objectPrototype s
    let y := other.inTurn (dispatch 1) .objectPrototype write .functionPrototype s
    Reachable .standard s ∧ write.Barred .functionPrototype s.heap ∧ x.1 = .done false ∧
      y.2.1 = .done false ∧
      ∀ a k, (y.2.2.heap.get a).own? k = (x.2.2.heap.get a).own? k := by
  intro s write other x y
  have hs : Reachable .standard s := .run 1 _
  let t := (other.run (dispatch 1) .objectPrototype s).2
  let hold : List Address := t.roots ++ .functionPrototype :: write.references
  obtain ⟨hnone, hlink, hown, hfree, hrefused, hlives, hlives'⟩ :
      (s.heap.get .functionPrototype).own? write.key = none ∧
      (s.heap.get .functionPrototype).proto = some .objectPrototype ∧
      (s.heap.get .objectPrototype).own? write.key = some (.data ⟨.null, false, true, true⟩) ∧
      s.heap.find? .objectPrototype other.key = none ∧ x.1 = .done false ∧
      t.heap.Lives hold .functionPrototype ∧ t.heap.Lives hold .objectPrototype := by
    unfold Heap.Lives
    decide +kernel
  have hfinds : s.heap.Finds write.key .functionPrototype .objectPrototype
      (.data ⟨.null, false, true, true⟩) := .above hnone hlink (.own hown)
  have hfind := hs.sound.acyclic.find?_iff.mpr hfinds
  have hspared : write.Spared .functionPrototype s.heap t := by
    intro _ a ha
    cases ha with
    | start => exact hlives
    | above _ hproto ha =>
      cases hlink.symm.trans hproto
      cases ha with
      | start => exact hlives'
      | above hnone' => cases hown.symm.trans hnone'
  have hspared' : other.Spared .objectPrototype s.heap
      (write.run (dispatch 1) .functionPrototype s).2 := by
    rintro ⟨b, p, _, hf, _⟩
    cases hfree.symm.trans (hs.sound.acyclic.find?_iff.mpr hf)
  have hkeys : write.key ≠ other.key := by decide
  have hdirect : write.Direct .functionPrototype s.heap :=
    fun b a hf => nomatch hfind.symm.trans hf
  have hdirect' : other.Direct .objectPrototype s.heap :=
    fun b a hf => nomatch hfree.symm.trans hf
  obtain ⟨-, hsecond, hproperties, -⟩ :=
    requests_commute hs (dispatch 1) hkeys hdirect hdirect' hspared hspared'
  refine ⟨hs, ⟨.objectPrototype, _, by decide, hfinds, fun d hd => ?_⟩, hrefused,
    hsecond.trans hrefused, hproperties⟩
  cases hd
  exact ⟨rfl, rfl⟩

/-- A machine with an object that has a read-only `k` and stands above another, and that a
third one alone refers to. -/
def withLoneHolder : Machine :=
  (Script.run 1 (fresh .standard)
    [.keep "above" (.create (.object .object (some (.named "ObjectPrototype")))),
      .access (.define (.named "above") (.ofString "k")
        ⟨.data, some (.constant .null), some false, none, none, some true, some true⟩
        false false),
      .keep "below" (.create (.object .object (some (.named "above")))),
      .keep "holder" (.create (.object .object (some (.named "ObjectPrototype")))),
      .access (.put (.named "holder") (.ofString "x") (.named "above") false false),
      .forget "above"]).2

/-- A write that is refused because of a prototype is accepted once the last reference to
the prototype is deleted. -/
theorem write_accepted_after_deletion :
    let s := withLoneHolder
    let write := PropertyRequest.put (.ofString "k") .null false false
    let deletion := PropertyRequest.delete (.ofString "x") false
    Reachable .standard s ∧ s.named? "below" = some (.object ⟨19⟩) ∧
      s.named? "holder" = some (.object ⟨20⟩) ∧ write.key ≠ deletion.key ∧
      (∀ b a, s.heap.find? ⟨19⟩ write.key ≠ some (b, .accessor a)) ∧
      (write.inTurn (dispatch 1) ⟨19⟩ deletion ⟨20⟩ s).1 = .done false ∧
      (deletion.inTurn (dispatch 1) ⟨20⟩ write ⟨19⟩ s).2.1 = .done true := by
  intro s write deletion
  obtain ⟨hbelow, hholder, hfind, hrefused, haccepted⟩ :
      s.named? "below" = some (.object ⟨19⟩) ∧ s.named? "holder" = some (.object ⟨20⟩) ∧
      s.heap.find? ⟨19⟩ write.key = some (⟨18⟩, .data ⟨.null, false, true, true⟩) ∧
      (write.inTurn (dispatch 1) ⟨19⟩ deletion ⟨20⟩ s).1 = .done false ∧
      (deletion.inTurn (dispatch 1) ⟨20⟩ write ⟨19⟩ s).2.1 = .done true := by decide +kernel
  refine ⟨.run 1 _, hbelow, hholder, by decide, fun b a hf => ?_, hrefused, haccepted⟩
  rw [hfind] at hf
  cases hf

end Machine
end ScriptModel
