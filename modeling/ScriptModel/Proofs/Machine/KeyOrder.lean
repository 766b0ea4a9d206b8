import ScriptModel.Proofs.Machine.Writing
import ScriptModel.Proofs.Property.Order

/-!
# Keys in the order of their creation

Every move of the machine reorders the keys of every object by one step at most, so at any
moment of any run the names of an object stand in the order in which they were last created.
Of the requests for a definition, a write or a deletion, those that are refused leave the
keys as they are, and of those that are accepted each has one effect on them.
-/

namespace ScriptModel

open PropertyTable

/-! ## Moves -/

namespace Heap

/-- The keys of every object that there is are reordered by one step at most. -/
def Reorders (h h' : Heap) : Prop :=
  ∀ a, h.contains a = true → Reordered (h.get a).table.keys (h'.get a).table.keys

theorem Reorders.of_tables {h h' : Heap} (ht : ∀ a, (h'.get a).table = (h.get a).table) :
    h.Reorders h' := by
  intro a _
  rw [ht a]
  exact .same

theorem Reorders.alloc (h : Heap) (o : Object) : h.Reorders (h.alloc o) := by
  intro a ha
  rw [get_alloc_of_contains o ha]
  exact .same

theorem Reorders.set {h : Heap} {a : Address} {obj : Object}
    (ha : Reordered (h.get a).table.keys obj.table.keys) : h.Reorders (h.set a obj) := by
  intro b _
  rw [get_set]
  split
  · rename_i hb
    rw [hb.1]
    exact ha
  · exact .same

/-- An object that there is not yet has no keys. -/
theorem Reorders.ages {h h' : Heap} (hr : h.Reorders h') (a : Address) :
    Ages (h.get a).table.keys (h'.get a).table.keys := by
  cases ha : h.contains a with
  | true => exact (hr a ha).ages
  | false =>
    rw [get_of_not_contains ha]
    exact ages_nil _

end Heap

namespace Object

variable {o obj : Object} {k : Key}

theorem reordered_define {f : Fragment} {overrides : Bool}
    (hd : o.define k f overrides = .ok obj) : Reordered o.table.keys obj.table.keys := by
  rcases define_eq_ok hd with ⟨_, rfl⟩ | ⟨p, _, rfl⟩
  · exact .same
  · exact reordered_insert o.table k p

/-- A deletion that succeeds strikes the key out. -/
theorem keys_delete (hd : o.delete k = .ok obj) :
    obj.table.keys = (o.table.erase k).keys := by
  unfold delete at hd
  split at hd
  · rename_i hnone
    cases hd
    have hk : k ∉ o.table.keys := fun hmem =>
      own?_eq_none_iff.mp hnone ((contains_iff_mem_keys o.table k).mpr hmem)
    rw [keys_erase, keys_erase_of_not_mem o.table hk]
  · split at hd
    · cases hd
      rfl
    · cases hd

theorem reordered_delete (hd : o.delete k = .ok obj) :
    Reordered o.table.keys obj.table.keys := by
  rw [keys_delete hd]
  exact reordered_erase o.table k

end Object

namespace Machine

theorem Act.reorders {s t : Machine} (h : Act s t) : s.heap.Reorders t.heap := by
  rcases h.tables with ht | ⟨o, ht⟩ | ⟨o, k, f, overrides, obj, hd, ht⟩ | ⟨o, k, obj, hd, ht⟩
  · exact .of_tables ht
  · rw [ht]
    exact .alloc _ o
  · rw [ht]
    exact .set (Object.reordered_define hd)
  · rw [ht]
    exact .set (Object.reordered_delete hd)

theorem Move.reorders {s t : Machine} (h : Move s t) : s.heap.Reorders t.heap := by
  cases h with
  | act ha => exact ha.reorders
  | enter ha => exact .of_tables fun _ => rfl
  | leave => exact .of_tables fun _ => rfl
  | refuse ha => exact .of_tables fun _ => rfl

/-! ## Runs -/

namespace Timeline

variable {s t : Machine}

/-- The keys of an object at each moment. -/
def keys (T : Timeline s t) (o : Address) (i : Nat) : List Key :=
  ((T.moment i).heap.get o).table.keys

theorem keys_length (T : Timeline s t) (o : Address) :
    T.keys o T.length = (t.heap.get o).table.keys := by
  rw [keys, T.last]

theorem reordered (T : Timeline s t) (o : Address) {m : Nat} (hm : m < T.length)
    (ho : (T.moment m).heap.contains o = true) :
    Reordered (T.keys o m) (T.keys o (m + 1)) :=
  (T.move m hm).reorders o ho

theorem ages (T : Timeline s t) (o : Address) :
    ∀ m < T.length, Ages (T.keys o m) (T.keys o (m + 1)) :=
  fun m hm => (T.move m hm).reorders.ages o

/-- A key that the object has at the end was created at some moment. -/
theorem exists_createdAt (T : Timeline s t) {o : Address} {k : Key}
    (hk : (t.heap.get o).hasOwn k = true) : ∃ i, CreatedAt (T.keys o) T.length k i := by
  refine PropertyTable.exists_createdAt ?_
  rw [keys_length]
  exact (contains_iff_mem_keys _ k).mp hk

end Timeline

theorem path_of_reachable {l : Limits} {s : Machine} (hs : Reachable l s) :
    Path (fresh l) s := by
  induction hs with
  | fresh => exact .refl
  | move _ hm ih => exact .tail ih hm

end Machine

/-! ## Requests -/

/-- What can be asked of an object about one property. -/
inductive PropertyRequest where
  | define (k : Key) (f : Fragment) (throws overrides : Bool)
  | put (k : Key) (v : Value) (throws overrides : Bool)
  | delete (k : Key) (throws : Bool)

namespace PropertyRequest

def run (inv : Invoker) (o : Address) : PropertyRequest → Run Bool
  | define k f throws overrides => Run.define o k f throws overrides
  | put k v throws overrides => inv.put o k v throws overrides
  | delete k throws => Run.delete o k throws

/-- No setter takes the request, which may then do anything. -/
def Direct (o : Address) (h : Heap) : PropertyRequest → Prop
  | put k _ _ _ => ∀ b a, h.find? o k = some (b, .accessor a) → a.setter = none
  | _ => True

/-- The request gives the key a property. -/
def Gives (k : Key) : PropertyRequest → Prop
  | define l _ _ _ => l = k
  | put l _ _ _ => l = k
  | delete _ _ => False

/-- What becomes of the keys when the request is accepted. -/
def reorder (ks : List Key) : PropertyRequest → List Key
  | define k _ _ _ => if k ∈ ks then ks else ks ++ [k]
  | put k _ _ _ => if k ∈ ks then ks else ks ++ [k]
  | delete k _ => ks.filter fun l => decide (l ≠ k)

theorem reorder_of_gives {r : PropertyRequest} {k : Key} (h : r.Gives k) (ks : List Key) :
    reorder ks r = if k ∈ ks then ks else ks ++ [k] := by
  cases r with
  | define l f throws overrides => rw [show l = k from h]; rfl
  | put l v throws overrides => rw [show l = k from h]; rfl
  | delete l throws => exact h.elim

end PropertyRequest

namespace Machine

variable {inv : Invoker} {s t : Machine} {o : Address} {k : Key}

/-- The keys of the object are what the request makes of them, and no other object has
changed. -/
structure Effect (r : PropertyRequest) (o : Address) (s t : Machine) : Prop where
  keys : (t.heap.get o).table.keys = r.reorder (s.heap.get o).table.keys
  objects : ∀ a, a ≠ o → t.heap.get a = s.heap.get a
  size : t.heap.size = s.heap.size

/-- A property that is set is at its place, or new at the end. -/
theorem Sets.effect {p : Property} {overrides : Bool} {r : PropertyRequest}
    (h : (s.noting o overrides).Sets o k p t)
    (hr : r.Gives k) : Effect r o s t where
  keys := by
    have hkeys := h.keys
    rw [heap_noting] at hkeys
    rw [hkeys, PropertyRequest.reorder_of_gives hr, Object.hasOwn]
    simp only [contains_iff_mem_keys]
  objects a ha := by
    rw [h.objects a ha, heap_noting]
  size := by
    rw [h.size, heap_noting]

/-- The request is accepted, and has its effect on the keys; or it is not, and has none on
any object. -/
def Answers (r : PropertyRequest) (o : Address) (s : Machine)
    (result : Outcome Bool × Machine) : Prop :=
  result.1 = .done true ∧ Effect r o s result.2 ∨
    result.1 ≠ .done true ∧ result.2.heap = s.heap

theorem answers_reject (r : PropertyRequest) (o : Address) (throws : Bool) (e : Exception)
    {u : Machine} (hu : u.heap = s.heap) : Answers r o s (Run.reject throws e u) := by
  right
  rw [Run.machine_reject]
  exact ⟨fun h => Run.reject_ne_true (Prod.ext h rfl), hu⟩

theorem answers_define (ho : s.heap.contains o = true) (k : Key) (f : Fragment)
    (throws overrides : Bool) :
    Answers (.define k f throws overrides) o s (Run.define o k f throws overrides s) := by
  by_cases hadmits : (s.heap.get o).Admits k f overrides
  · obtain ⟨p, t, hdone, hsets, -⟩ := Run.define_of_admits ho throws hadmits
    rw [hdone]
    exact .inl ⟨rfl, hsets.effect rfl⟩
  · rw [Run.define_of_not_admits throws hadmits]
    exact answers_reject _ o throws _ (heap_noting s o overrides)

theorem answers_delete (ho : s.heap.contains o = true) (k : Key) (throws : Bool) :
    Answers (.delete k throws) o s (Run.delete o k throws s) := by
  unfold Run.delete
  cases hd : (s.heap.get o).delete k with
  | ok obj =>
    have hkeys : ((s.heap.set o obj).get o).table.keys =
        (s.heap.get o).table.keys.filter fun l => decide (l ≠ k) := by
      rw [Heap.get_set, if_pos ⟨rfl, ho⟩]
      exact Object.keys_delete hd
    refine .inl ⟨rfl, hkeys, fun a ha => ?_, Heap.size_modify ..⟩
    exact (Heap.get_set ..).trans (if_neg fun h => ha h.1)
  | error e => exact answers_reject _ o throws e rfl

theorem answers_put (ho : s.heap.contains o = true) {v : Value} {throws overrides : Bool}
    (hdirect : PropertyRequest.Direct o s.heap (.put k v throws overrides)) :
    Answers (.put k v throws overrides) o s (inv.put o k v throws overrides s) := by
  cases hown : (s.heap.get o).own? k with
  | some p =>
    cases p with
    | accessor a =>
      have hfind := Heap.find?_of_own hown
      rw [Invoker.put_of_getterOnly inv v throws overrides hfind (hdirect o a hfind)]
      exact answers_reject _ o throws _ rfl
    | data d =>
      by_cases hd : d.writable = true ∨ overrides = true ∧ d.configurable = true
      · obtain ⟨w, t, hdone, hsets, -⟩ :=
          Invoker.put_of_own inv v throws overrides ho hown hd
        rw [hdone]
        exact .inl ⟨rfl, hsets.effect rfl⟩
      · rw [Invoker.put_of_own_readOnly inv v throws overrides hown hd]
        exact answers_reject _ o throws _ rfl
  | none =>
    by_cases hfree : ∀ b p, s.heap.find? o k = some (b, p) →
        ∃ d, p = .data d ∧ (d.writable = true ∨ overrides = true)
    · rw [Invoker.put_of_free inv v throws overrides hown hfree]
      by_cases hopen : (s.heap.get o).extensible = true ∨ overrides = true
      · obtain ⟨t, hdone, hsets⟩ := Run.add_of_open v throws ho hown hopen
        rw [hdone]
        exact .inl ⟨rfl, hsets.effect rfl⟩
      · rw [Run.add_of_closed v throws hopen]
        exact answers_reject _ o throws _ rfl
    · -- Something above the object is in the way.
      simp only [not_forall] at hfree
      obtain ⟨b, p, hfind, hblocks⟩ := hfree
      cases p with
      | accessor a =>
        rw [Invoker.put_of_getterOnly inv v throws overrides hfind (hdirect b a hfind)]
        exact answers_reject _ o throws _ rfl
      | data d =>
        have hne : b ≠ o := by
          intro hb
          rw [← hb, (Heap.own_of_find? hfind).2] at hown
          cases hown
        have hlocked : ¬ (d.writable = true ∨ overrides = true) :=
          fun h => hblocks ⟨d, rfl, h⟩
        simp only [not_or, Bool.not_eq_true] at hlocked
        rw [Invoker.put_of_inherited_readOnly inv v throws overrides hne hfind
          hlocked.1 hlocked.2]
        exact answers_reject _ o throws _ rfl

theorem answers_request (inv : Invoker) (ho : s.heap.contains o = true)
    {r : PropertyRequest}
    (hdirect : r.Direct o s.heap) : Answers r o s (r.run inv o s) := by
  cases r with
  | define k f throws overrides => exact answers_define ho k f throws overrides
  | put k v throws overrides => exact answers_put ho hdirect
  | delete k throws => exact answers_delete ho k throws

/-- Requests are made of one object, one after the other, each on the machine that the one
before left. The list has those that were accepted. -/
inductive Serves (inv : Invoker) (o : Address) :
    Machine → List PropertyRequest → Machine → Prop where
  | nil {s : Machine} : Serves inv o s [] s
  | accepted {s t u : Machine} {r : PropertyRequest} {rs : List PropertyRequest} :
    r.Direct o s.heap → r.run inv o s = (.done true, t) → Serves inv o t rs u →
      Serves inv o s (r :: rs) u
  | refused {s t u : Machine} {r : PropertyRequest} {rs : List PropertyRequest}
      {out : Outcome Bool} :
    r.Direct o s.heap → r.run inv o s = (out, t) → out ≠ .done true → Serves inv o t rs u →
      Serves inv o s rs u

/-- What is accepted reorders the keys, and what is refused does not. -/
theorem Serves.keys_eq {rs : List PropertyRequest} (h : Serves inv o s rs t)
    (ho : s.heap.contains o = true) :
    (t.heap.get o).table.keys =
      rs.foldl PropertyRequest.reorder (s.heap.get o).table.keys := by
  induction h with
  | nil => rfl
  | accepted hdirect hrun _ ih =>
    have hanswers := answers_request inv ho hdirect
    rw [hrun] at hanswers
    rcases hanswers with ⟨-, hr⟩ | ⟨hne, -⟩
    · rw [ih (by rw [Heap.contains, hr.size]; exact ho), hr.keys, List.foldl_cons]
    · exact absurd rfl hne
  | refused hdirect hrun hne _ ih =>
    have hanswers := answers_request inv ho hdirect
    rw [hrun] at hanswers
    rcases hanswers with ⟨hdone, -⟩ | ⟨-, hheap⟩
    · exact absurd hdone hne
    · dsimp only at hheap
      rw [ih (hheap ▸ ho), hheap]

/-- A key that was deleted and is given a property again is the last one. -/
theorem Serves.keys_recreated {throws : Bool} {r : PropertyRequest}
    (h : Serves inv o s [.delete k throws, r] t) (ho : s.heap.contains o = true)
    (hr : r.Gives k) :
    (t.heap.get o).table.keys =
      ((s.heap.get o).table.keys.filter fun l => decide (l ≠ k)) ++ [k] := by
  rw [h.keys_eq ho, List.foldl_cons, List.foldl_cons, List.foldl_nil,
    PropertyRequest.reorder_of_gives hr]
  exact if_neg (by simp [PropertyRequest.reorder])

/-- The keys of an object, at any moment of any run. The list of keys has exactly the keys
of the map, each once. What a script sees is the same keys, each once, the indices first and
in ascending order; and then the names in the order in which they were last created, of
those created at one moment in the order of that moment. No move does more to the list than
to put one new key at the end or to take one out. An accepted definition or write keeps the
place of a key that is there and puts a new one at the end, an accepted deletion takes out
its key alone, and a refused request of any kind leaves every object as it is; so what was
deleted and is created again comes last. -/
theorem keys_by_creation {l : Limits} {s : Machine} (hs : Reachable l s) :
    (∀ o, (s.heap.get o).table.keys.Nodup ∧
      ∀ k, k ∈ (s.heap.get o).table.keys ↔ (s.heap.get o).hasOwn k = true) ∧
    (∀ o, (s.heap.get o).keys.Nodup ∧
      (∀ k, k ∈ (s.heap.get o).keys ↔ (s.heap.get o).hasOwn k = true) ∧
      ∃ (indices : List UInt32) (names : List String),
        (s.heap.get o).keys = indices.map Key.index ++ names.map Key.name ∧
          indices.Pairwise (· < ·)) ∧
    Nonempty (Timeline (fresh l) s) ∧
    (∀ (r : Machine) (T : Timeline r s) (o : Address),
      (∀ m < T.length, (T.moment m).heap.contains o = true →
        Reordered (T.keys o m) (T.keys o (m + 1))) ∧
      (∀ k, (s.heap.get o).hasOwn k = true → ∃ i, CreatedAt (T.keys o) T.length k i) ∧
      ∀ a b i j, CreatedAt (T.keys o) T.length (.name a) i →
        CreatedAt (T.keys o) T.length (.name b) j →
        (Key.Precedes (s.heap.get o).keys (.name a) (.name b) ↔
          i < j ∨ i = j ∧ Key.Precedes ((T.moment i).heap.get o).keys (.name a) (.name b))) ∧
    ∀ (inv : Invoker) (o : Address), s.heap.contains o = true →
      (∀ r : PropertyRequest, r.Direct o s.heap → Answers r o s (r.run inv o s)) ∧
      (∀ rs t, Serves inv o s rs t → (t.heap.get o).table.keys =
        rs.foldl PropertyRequest.reorder (s.heap.get o).table.keys) ∧
      ∀ k throws r t, r.Gives k → Serves inv o s [.delete k throws, r] t →
        (t.heap.get o).table.keys =
          ((s.heap.get o).table.keys.filter fun l => decide (l ≠ k)) ++ [k] := by
  refine ⟨fun o => ⟨?_, fun k => ?_⟩, fun o => ⟨?_, fun k => ?_, ?_⟩,
    (path_of_reachable hs).timeline,
    fun r T o => ⟨fun m => T.reordered o, fun k => T.exists_createdAt, fun a b i j ha hb => ?_⟩,
    fun inv o ho => ?_⟩
  · exact (s.heap.get o).table.nodup
  · exact ((s.heap.get o).table.contains_iff_mem_keys k).symm
  · exact (s.heap.get o).table.nodup_orderedKeys
  · exact (s.heap.get o).table.mem_orderedKeys_iff k
  · exact ⟨_, _, rfl, (s.heap.get o).table.pairwise_indices⟩
  · have hkeys := PropertyTable.precedes_iff (T.ages o) ha hb
    rw [T.keys_length] at hkeys
    rw [Object.keys, Object.keys, precedes_orderedKeys, precedes_orderedKeys]
    exact hkeys
  · exact ⟨fun r => answers_request inv ho, fun rs t h => h.keys_eq ho,
      fun k throws r t hr h => h.keys_recreated ho hr⟩

/-- On a fresh machine Object.prototype has `toString` before all others; deleted and
defined again, it comes last. -/
theorem toString_comes_last :
    let s := fresh .standard
    Reachable .standard s ∧
      (s.heap.get .objectPrototype).table.keys.head? = some .toStringMethod ∧
      ∃ t, Serves (dispatch 1) .objectPrototype s [.delete .toStringMethod true,
          .define .toStringMethod (.valueOnly .null) true false] t ∧
        (t.heap.get .objectPrototype).table.keys.getLast? = some .toStringMethod := by
  intro s
  obtain ⟨_, _, _, _, hrequests⟩ := keys_by_creation (l := .standard) .fresh
  let d := Run.delete .objectPrototype .toStringMethod true s
  let r := Run.define .objectPrototype .toStringMethod (.valueOnly .null) true false d.2
  obtain ⟨ho, hhead, hd, hr⟩ : s.heap.contains .objectPrototype = true ∧
      (s.heap.get .objectPrototype).table.keys.head? = some .toStringMethod ∧
      d.1 = .done true ∧ r.1 = .done true := by decide +kernel
  have hserves : Serves (dispatch 1) .objectPrototype s [.delete .toStringMethod true,
      .define .toStringMethod (.valueOnly .null) true false] r.2 :=
    .accepted trivial (t := d.2) (Prod.ext hd rfl)
      (.accepted trivial (t := r.2) (Prod.ext hr rfl) .nil)
  have hlast := (hrequests (dispatch 1) .objectPrototype ho).2.2 .toStringMethod true
    (.define .toStringMethod (.valueOnly .null) true false) r.2 rfl hserves
  refine ⟨.fresh, hhead, r.2, hserves, ?_⟩
  rw [hlast, List.getLast?_concat]

end Machine
end ScriptModel
