import ScriptModel.Proofs.Heap.Lookup
import ScriptModel.Proofs.Machine.Assignment
import ScriptModel.Proofs.Machine.Capture

/-!
# What a registration installs

A registration stores its methods slot by slot, through an ordinary write that overrides
what protects an object. Where no setter takes a write, nothing is run, and each slot is
either filled or refuses: a filled slot holds the new function, and keeps the flags of the
data property that was there. A slot refuses for a property that is locked and not writable,
or for an accessor without a setter, and then the registration fails. What fills a slot
leaves all others as they were, and lets no look-up meet an accessor that it did not meet
before.
-/

namespace ScriptModel

/-! ## Slots -/

/-- A place for a built-in: a method, and the object that is to have it. -/
structure Slot where
  host : Host
  method : Method

namespace Slot

def address (x : Slot) : Address := x.host.address

def key (x : Slot) : Key := .ofString x.method.name

/-- The slots of both prototypes, in the order in which they are filled. -/
def all : List Slot :=
  Method.ofObject.map (⟨.object, ·⟩) ++ Method.onFunctionPrototype.map (⟨.function, ·⟩)

/-- Not the same property of the same object. -/
def Apart (x y : Slot) : Prop := x.address ≠ y.address ∨ x.key ≠ y.key

instance (x y : Slot) : Decidable (x.Apart y) := inferInstanceAs (Decidable (_ ∨ _))

theorem apart_all : all.Pairwise Apart := by decide +kernel

/-- The failure to fill the slot. -/
def failure (x : Slot) : InstallFailure := ⟨x.host.name, x.method.name, .notStored⟩

/-- The function that goes into the slot. -/
def function (x : Slot) : Object :=
  .native x.method.name x.method.arity (.builtin x.method.behaviour) (some .functionPrototype)

/-- A setter takes what is written to the slot. -/
def MeetsSetter (x : Slot) (h : Heap) : Prop :=
  ∃ b a g, h.find? x.address x.key = some (b, .accessor a) ∧ a.setter = some g

instance (x : Slot) (h : Heap) : Decidable (x.MeetsSetter h) :=
  decidable_of_iff ((h.find? x.address x.key).any (fun e =>
      match e.2 with
      | .accessor a => a.setter.isSome
      | .data _ => false) = true) <| by
    unfold MeetsSetter
    rcases h.find? x.address x.key with _ | ⟨b, d | a⟩
    · simp
    · simp
    · simp [Option.isSome_iff_exists]

/-- Nothing keeps the slot from being filled: no accessor, and no property that is locked
and not writable. -/
structure Open (x : Slot) (h : Heap) : Prop where
  noAccessor : ∀ b a, h.find? x.address x.key ≠ some (b, .accessor a)
  changeable : ∀ d, (h.get x.address).own? x.key = some (.data d) →
    d.writable = true ∨ d.configurable = true

instance (x : Slot) (h : Heap) : Decidable (x.Open h) :=
  decidable_of_iff (((h.find? x.address x.key).all fun e => e.2.kind == .data) = true ∧
      (((h.get x.address).own? x.key).all fun p =>
        match p with
        | .data d => d.writable || d.configurable
        | .accessor _ => true) = true) <| by
    constructor
    · rintro ⟨hfind, hown⟩
      constructor
      · intro b a hf
        rw [hf] at hfind
        cases hfind
      · intro d hd
        rw [hd] at hown
        simpa using hown
    · intro hopen
      constructor
      · rcases hf : h.find? x.address x.key with _ | ⟨b, d | a⟩
        · rfl
        · rfl
        · exact absurd hf (hopen.noAccessor b a)
      · rcases hd : (h.get x.address).own? x.key with _ | (d | a)
        · rfl
        · simpa using hopen.changeable d hd
        · rfl

/-- The property in the slot when it has been filled: a data property that was there keeps
its flags. -/
def filled (f : Address) : Option Property → Property
  | some (.data d) => .data { d with value := .object f }
  | _ => .data ⟨.object f, true, false, true⟩

end Slot

namespace Invoker

variable (inv : Invoker)

/-- Fills the slots in turn, up to the first that refuses. -/
def fill : List Slot → Run Unit
  | [] => return ()
  | x :: xs => do
    inv.installMethod x.host x.method
    fill xs

theorem fill_append (xs ys : List Slot) :
    inv.fill (xs ++ ys) = (do inv.fill xs; inv.fill ys) := by
  induction xs with
  | nil => rfl
  | cons x xs ih =>
    show (inv.installMethod x.host x.method >>= fun _ => inv.fill (xs ++ ys)) =
      (inv.installMethod x.host x.method >>= fun _ => inv.fill xs) >>= fun _ => inv.fill ys
    rw [bind_assoc, ih]

theorem installAll_eq_fill (host : Host) (ms : List Method) :
    inv.installAll host ms = inv.fill (ms.map (⟨host, ·⟩)) := by
  induction ms with
  | nil => rfl
  | cons m ms ih =>
    show (inv.installMethod host m >>= fun _ => inv.installAll host ms) = _
    rw [ih]
    rfl

/-- A registration of all built-ins fills all slots. -/
theorem register_all : inv.register .all = inv.fill Slot.all := by
  rw [Slot.all, fill_append, ← installAll_eq_fill, ← installAll_eq_fill]
  rfl

end Invoker

/-! ## One write -/

namespace Object

variable {o : Object} {k : Key} {v : Value}

/-- An object can be overridden to take a property that it has not. -/
theorem define_new (hk : o.own? k = none) (writable enumerable configurable : Bool) :
    ∃ obj, o.define k (.data v writable enumerable configurable) true = .ok obj ∧
      obj.own? k = some (.data ⟨v, writable, enumerable, configurable⟩) := by
  have hd : o.define k (.data v writable enumerable configurable) true =
      .ok (o.withProperty k (Fragment.data v writable enumerable configurable).create) := by
    simp [define, merge, hk]
  refine ⟨_, hd, ?_⟩
  rw [own?_of_define_self hd, hk]
  exact congrArg some (Fragment.settle_none rfl rfl)

/-- A data property that is writable or not locked takes a value, and keeps its flags. -/
theorem define_valueOnly {d : DataProperty} (hk : o.own? k = some (.data d))
    (hd : d.writable = true ∨ d.configurable = true) (hv : v.kind ≠ .number)
    (overrides : Bool) : ∃ obj, o.define k (.valueOnly v) overrides = .ok obj ∧
      obj.own? k = some (.data { d with value := v }) := by
  have hpermitted : ((Property.data d).configurable ||
      (Fragment.valueOnly v).permittedBy (.data d)) = true := by
    rcases hd with hw | hc
    · simp [Fragment.permittedBy, Fragment.valueOnly, Fragment.agrees, hw]
    · simp [Property.configurable, hc]
  obtain ⟨obj, hobj⟩ : ∃ obj, o.define k (.valueOnly v) overrides = .ok obj := by
    by_cases hw : (Fragment.valueOnly v).isWithin (.data d) = true
    · exact ⟨o, define_of_isWithin hk hw⟩
    · exact ⟨_, by simp only [define, merge, hk, if_neg hw, if_pos hpermitted]; rfl⟩
  refine ⟨obj, hobj, ?_⟩
  rw [own?_of_define_self hobj, hk]
  rcases Fragment.settle_some (f := .valueOnly v) rfl rfl d with ⟨_, hsame, hkept⟩ | hwritten
  · rw [hkept, ← Value.eq_of_same hsame hv]
  · rw [hwritten]
    rfl

end Object

/-- The second object is the first with the function in the slot. -/
structure Object.FilledBy (o : Object) (x : Slot) (f : Address) (obj : Object) : Prop where
  own : obj.own? x.key = some (Slot.filled f (o.own? x.key))
  others : ∀ k, k ≠ x.key → obj.own? k = o.own? k
  proto : obj.proto = o.proto

namespace Invoker

variable {inv : Invoker} {s : Machine}

/-- A write that overrides, where no accessor takes it: only the object's own property
counts, and only one that is locked and not writable refuses. -/
theorem put_override {o : Address} {k : Key} (v : Value) (throws : Bool)
    (hopen : ∀ b a, s.heap.find? o k ≠ some (b, .accessor a)) :
    inv.put o k v throws true s =
      match (s.heap.get o).own? k with
      | some (.data d) =>
        if d.writable || d.configurable then Run.define o k (.valueOnly v) throws true s
        else Run.reject throws (.readOnly k) s
      | _ => Run.define o k (.data v true false true) throws true s := by
  have hadd : Run.add o k v throws true s =
      Run.define o k (.data v true false true) throws true s := by
    simp [Run.add]
  rcases hown : (s.heap.get o).own? k with _ | d | a
  · rcases hfind : s.heap.find? o k with _ | ⟨holder, d | a⟩
    · rw [put_of_find? inv hfind]
      exact hadd
    · -- What is found is not the object's own.
      have hne : holder ≠ o := by
        rintro rfl
        rw [(Heap.own_of_find? hfind).2] at hown
        cases hown
      rw [put_of_find? inv hfind]
      dsimp only
      rw [if_neg hne, if_neg (by simp)]
      exact hadd
    · exact absurd hfind (hopen holder a)
  · rw [put_of_find? inv (Heap.find?_of_own hown)]
    dsimp only
    rw [if_pos rfl, Bool.true_and]
    split <;> rfl
  · exact absurd (Heap.find?_of_own hown) (hopen o a)

variable {x : Slot} {f : Address}

/-- An open slot takes the function. -/
theorem put_of_open (hopen : x.Open s.heap) :
    ∃ obj, (s.heap.get x.address).FilledBy x f obj ∧
      inv.put x.address x.key (.object f) false true s =
        (.done true, (s.note (.overrode x.address)).withHeap (s.heap.set x.address obj)) := by
  have hdefine {g : Fragment} {obj : Object}
      (hd : (s.heap.get x.address).define x.key g true = .ok obj) :
      Run.define x.address x.key g false true s =
        (.done true, (s.note (.overrode x.address)).withHeap (s.heap.set x.address obj)) := by
    simp [Run.define, Machine.note, hd]
  have hfunction : (Value.object f).kind ≠ .number := fun h => by cases h
  rw [put_override (.object f) false hopen.noAccessor]
  rcases hown : (s.heap.get x.address).own? x.key with _ | d | a
  · obtain ⟨obj, hd, hp⟩ := Object.define_new (v := .object f) hown true false true
    exact ⟨obj, ⟨by rw [hp, hown]; rfl, fun k hk => Object.own?_of_define_ne hd hk,
      Object.proto_of_define hd⟩, hdefine hd⟩
  · have hchange := hopen.changeable d hown
    obtain ⟨obj, hd, hp⟩ := Object.define_valueOnly hown hchange hfunction true
    refine ⟨obj, ⟨by rw [hp, hown]; rfl, fun k hk => Object.own?_of_define_ne hd hk,
      Object.proto_of_define hd⟩, ?_⟩
    rw [← hdefine hd]
    exact if_pos (by simpa using hchange)
  · exact absurd (Heap.find?_of_own hown) (hopen.noAccessor _ a)

/-- A slot that is not open refuses it, when no setter is met. -/
theorem put_of_not_open (hopen : ¬ x.Open s.heap) (hsetter : ¬ x.MeetsSetter s.heap) :
    inv.put x.address x.key (.object f) false true s = (.done false, s) := by
  by_cases hno : ∀ b a, s.heap.find? x.address x.key ≠ some (b, .accessor a)
  · obtain ⟨d, hown, hlocked⟩ : ∃ d, (s.heap.get x.address).own? x.key = some (.data d) ∧
        ¬ (d.writable = true ∨ d.configurable = true) := by
      by_contra hnone
      exact hopen ⟨hno, fun d hd => by_contra fun hn => hnone ⟨d, hd, hn⟩⟩
    rw [put_override (.object f) false hno, hown]
    exact if_neg (by simpa using hlocked)
  · obtain ⟨b, a, hfind⟩ : ∃ b a, s.heap.find? x.address x.key = some (b, .accessor a) := by
      by_contra hnone
      exact hno fun b a hf => hnone ⟨b, a, hf⟩
    have hset : a.setter = none := by
      cases hg : a.setter with
      | none => rfl
      | some g => exact absurd ⟨b, a, g, hfind, hg⟩ hsetter
    rw [put_of_find? inv hfind]
    simp only [hset]
    rfl

end Invoker

/-! ## One slot -/

namespace Slot

/-- The second heap has in the slot a function that the first had not: the method's, with
the name and the number of parameters of the method. -/
structure HoldsNew (x : Slot) (h h' : Heap) (f : Address) : Prop where
  new : h.contains f = false
  own : (h'.get x.address).own? x.key = some (filled f ((h.get x.address).own? x.key))
  cls : (h'.get f).cls = .function
  callable : (h'.get f).callable =
    some (.native ⟨x.method.name, x.method.arity, .builtin x.method.behaviour, none⟩)
  length : (h'.get f).own? .length =
    some (Object.dataProperty (.ofInt x.method.arity.toNat) false false false)

/-- What is open or free of setters stays so, as long as nothing is done to the slot
itself. -/
theorem Open.narrow {x : Slot} {h h' : Heap} (hopen : x.Open h) (hn : h.Narrows h')
    (hh : h.Acyclic) (hh' : h'.Acyclic) (hx : h.contains x.address = true)
    (hown : (h'.get x.address).own? x.key = (h.get x.address).own? x.key) : x.Open h' where
  noAccessor b a hf := hopen.noAccessor b a (hn.find?_accessor hh hh' hx hf)
  changeable d hd := hopen.changeable d (hown ▸ hd)

theorem not_meetsSetter_narrow {x : Slot} {h h' : Heap} (hx : ¬ x.MeetsSetter h)
    (hn : h.Narrows h') (hh : h.Acyclic) (hh' : h'.Acyclic)
    (hc : h.contains x.address = true) : ¬ x.MeetsSetter h' := by
  rintro ⟨b, a, g, hf, hg⟩
  exact hx ⟨b, a, g, hn.find?_accessor hh hh' hc hf, hg⟩

/-- What filling a slot does to the heap. -/
structure Fills (x : Slot) (h h' : Heap) : Prop where
  holds : x.HoldsNew h h' h.next
  narrows : h.Narrows h'
  others : ∀ o k, h.contains o = true → o ≠ x.address ∨ k ≠ x.key →
    (h'.get o).own? k = (h.get o).own? k

theorem fills_of_filledBy {x : Slot} {h : Heap} {obj : Object}
    (hx : h.contains x.address = true)
    (hobj : (h.get x.address).FilledBy x h.next obj) (roots : List Address) :
    x.Fills h (((h.alloc x.function).set x.address obj).release roots) := by
  have hold : ∀ o, h.contains o = true → (h.alloc x.function).get o = h.get o :=
    fun o ho => Heap.get_alloc_of_contains _ ho
  have hnew : ((h.alloc x.function).set x.address obj).get h.next =
      { x.function with proto := h.link x.function.proto } := by
    have hne : h.next ≠ x.address := by
      intro he
      rw [← he, h.not_contains_next] at hx
      cases hx
    rw [Heap.get_set, if_neg fun hn => hne hn.1, Heap.get_alloc_next]
  have hself : ((h.alloc x.function).set x.address obj).get x.address = obj := by
    rw [Heap.get_set, if_pos ⟨rfl, Heap.contains_alloc _ hx⟩]
  refine ⟨⟨h.not_contains_next, ?_, ?_, ?_, ?_⟩, ?_, fun o k ho hne => ?_⟩
  · rw [Heap.own?_release, hself]
    exact hobj.own
  · rw [Heap.release_eq_unlink, Heap.get_unlink, hnew]
    rfl
  · rw [Heap.release_eq_unlink, Heap.get_unlink, hnew]
    rfl
  · rw [Heap.own?_release, hnew]
    rfl
  · have hdata : ∃ d, obj.own? x.key = some (.data d) := by
      rw [hobj.own]
      unfold filled
      split <;> exact ⟨_, rfl⟩
    obtain ⟨d, hd⟩ := hdata
    refine (Heap.Narrows.alloc h x.function).trans (.trans (.set hd ?_ ?_) (.release _ roots))
    · rw [hold _ hx]
      exact hobj.others
    · rw [hold _ hx]
      exact hobj.proto
  · rw [Heap.own?_release, Heap.get_set]
    split
    · rename_i hox
      obtain ⟨rfl, _⟩ := hox
      exact hobj.others k (hne.resolve_left fun h => h rfl)
    · rw [hold o ho]

end Slot

namespace Invoker

variable (inv : Invoker) {x : Slot} {s : Machine}

/-- To fill a slot is to make the function, write it, and let go what was there. -/
theorem installMethod_of_put {stored : Bool} {t : Machine}
    (hput : inv.put x.address x.key (.object s.heap.next) false true
      (s.withHeap (s.heap.alloc x.function)) = (.done stored, t)) :
    inv.installMethod x.host x.method s =
      (if stored then .done () else .aborted x.failure, t.sweep []) := by
  have halloc : Run.alloc x.function s =
      (.done s.heap.next, s.withHeap (s.heap.alloc x.function)) := rfl
  have hattempt : (inv.put x.address x.key (.object s.heap.next) false true).attempt
      (s.withHeap (s.heap.alloc x.function)) = (.done (.ok stored), t) := by
    rw [Run.attempt, hput]
  cases stored with
  | true =>
    exact Run.swept_of_done ((Run.bind_of_done _ halloc).trans (Run.bind_of_done _ hattempt))
  | false =>
    exact Run.swept_of_aborted ((Run.bind_of_done _ halloc).trans (Run.bind_of_done _ hattempt))

/-- Where no setter is met, a slot is filled or refuses, and an open one is filled. -/
theorem installMethod_cases (hs : s.heap.Acyclic) (hx : s.heap.contains x.address = true)
    (hsetter : ¬ x.MeetsSetter s.heap) :
    (∃ t, inv.installMethod x.host x.method s = (.done (), t) ∧ x.Fills s.heap t.heap) ∨
      ¬ x.Open s.heap ∧ ∃ t, inv.installMethod x.host x.method s = (.aborted x.failure, t) := by
  have hnarrow : s.heap.Narrows (s.heap.alloc x.function) := .alloc _ _
  have hsame : (s.heap.alloc x.function).get x.address = s.heap.get x.address :=
    Heap.get_alloc_of_contains _ hx
  by_cases hopen : x.Open (s.heap.alloc x.function)
  · obtain ⟨obj, hobj, hput⟩ :=
      @put_of_open inv (s.withHeap (s.heap.alloc x.function)) x s.heap.next hopen
    have hobj' : (s.heap.get x.address).FilledBy x s.heap.next obj := hsame ▸ hobj
    exact .inl ⟨_, installMethod_of_put inv hput, Slot.fills_of_filledBy hx hobj' _⟩
  · have hsetter' := Slot.not_meetsSetter_narrow hsetter hnarrow hs (hs.alloc _) hx
    refine .inr ⟨fun h => hopen (h.narrow hnarrow hs (hs.alloc _) hx (by rw [hsame])), ?_⟩
    exact ⟨_, installMethod_of_put inv
      (put_of_not_open (s := s.withHeap (s.heap.alloc x.function)) hopen hsetter')⟩

end Invoker

/-! ## All slots -/

namespace Slot

/-- What filling slots does to the heap. -/
structure FillsAll (xs : List Slot) (h h' : Heap) : Prop where
  holds : ∀ x ∈ xs, ∃ f, x.HoldsNew h h' f
  others : ∀ o k, h.contains o = true → (∀ x ∈ xs, o ≠ x.address ∨ k ≠ x.key) →
    (h'.get o).own? k = (h.get o).own? k

variable {x : Slot} {xs : List Slot} {s t u : Machine}

/-- A slot that was filled stays filled while others are. -/
theorem HoldsNew.later {f : Address} (hx : x.HoldsNew s.heap t.heap f)
    (hpath : Machine.Path t u)
    (hown : (u.heap.get x.address).own? x.key = (t.heap.get x.address).own? x.key) :
    x.HoldsNew s.heap u.heap f where
  new := hx.new
  own := hown.trans hx.own
  cls := (hpath.keepsObjects.cls f (Heap.contains_of_callable hx.callable)).trans hx.cls
  callable := hpath.keepsObjects.callable_eq hx.callable
  length := hpath.own?_of_fixed hx.length rfl rfl

/-- One slot, and then the others. -/
theorem FillsAll.cons (hx : x.Fills s.heap t.heap) (hpath : Machine.Path t u)
    (hxs : FillsAll xs t.heap u.heap) (hc : s.heap.contains x.address = true)
    (hcs : ∀ y ∈ xs, s.heap.contains y.address = true) (hapart : ∀ y ∈ xs, x.Apart y) :
    FillsAll (x :: xs) s.heap u.heap where
  holds y hy := by
    rcases List.mem_cons.mp hy with rfl | hy
    · exact ⟨_, hx.holds.later hpath (hxs.others _ _ (hx.narrows.contains _ hc) hapart)⟩
    · obtain ⟨f, hf⟩ := hxs.holds y hy
      have hnew : s.heap.contains f = false := by
        cases hsf : s.heap.contains f with
        | false => rfl
        | true => exact (hx.narrows.contains f hsf).symm.trans hf.new
      have hown := hx.others y.address y.key (hcs y hy) ((hapart y hy).imp Ne.symm Ne.symm)
      exact ⟨f, hnew, hown ▸ hf.own, hf.cls, hf.callable, hf.length⟩
  others o k ho hne := by
    rw [hxs.others o k (hx.narrows.contains o ho) fun y hy => hne y (List.mem_cons_of_mem _ hy)]
    exact hx.others o k ho (hne x List.mem_cons_self)

end Slot

namespace Machine

variable {l : Limits} {s : Machine}

/-- Where no setter is met, all slots are filled, or one that is not open refuses. -/
theorem fill_cases (n : Nat) (hs : Reachable l s) {xs : List Slot}
    (hc : ∀ x ∈ xs, s.heap.contains x.address = true)
    (hsetter : ∀ x ∈ xs, ¬ x.MeetsSetter s.heap) (hapart : xs.Pairwise Slot.Apart) :
    (∃ t, (dispatch n).fill xs s = (.done (), t) ∧ Path s t ∧ Slot.FillsAll xs s.heap t.heap) ∨
      ∃ x ∈ xs, ¬ x.Open s.heap ∧ ∃ t, (dispatch n).fill xs s = (.aborted x.failure, t) := by
  induction xs generalizing s with
  | nil => exact .inl ⟨s, rfl, .refl, by simp, fun _ _ _ _ => rfl⟩
  | cons x xs ih =>
    obtain ⟨hx, hxs⟩ := List.forall_mem_cons.mp hc
    obtain ⟨hsetx, hsetxs⟩ := List.forall_mem_cons.mp hsetter
    obtain ⟨hapx, hapxs⟩ := List.pairwise_cons.mp hapart
    rcases (dispatch n).installMethod_cases hs.sound.acyclic hx hsetx with
      ⟨t, ht, hfills⟩ | ⟨hopen, t, ht⟩
    · have hpath : Path s t := by
        have h := Run.congruence_path.installMethod (Run.dispatch_path n) (fun _ _ => .refl)
          x.host x.method s
        rwa [ht] at h
      have hreach : Reachable l t := hs.path hpath
      have hsetxs' : ∀ y ∈ xs, ¬ y.MeetsSetter t.heap := fun y hy =>
        Slot.not_meetsSetter_narrow (hsetxs y hy) hfills.narrows hs.sound.acyclic
          hreach.sound.acyclic (hxs y hy)
      rcases ih hreach (fun y hy => hfills.narrows.contains _ (hxs y hy)) hsetxs' hapxs with
        ⟨u, hu, hpath', hall⟩ | ⟨y, hy, hopen, u, hu⟩
      · exact .inl ⟨u, (Run.bind_of_done _ ht).trans hu, hpath.trans hpath',
          .cons hfills hpath' hall hx hxs hapx⟩
      · refine .inr ⟨y, List.mem_cons_of_mem _ hy, fun h => hopen ?_, u,
          (Run.bind_of_done _ ht).trans hu⟩
        exact h.narrow hfills.narrows hs.sound.acyclic hreach.sound.acyclic (hxs y hy)
          (hfills.others _ _ (hxs y hy) ((hapx y hy).imp Ne.symm Ne.symm))
    · exact .inr ⟨x, List.mem_cons_self, hopen, t, Run.bind_of_aborted _ ht⟩

/-- The two prototypes exist on every reachable machine. -/
theorem Reachable.contains_slot (hs : Reachable l s) {x : Slot} (hx : x ∈ Slot.all) :
    s.heap.contains x.address = true := by
  have hbare : bareHeap.contains x.address = true := by
    have hall : ∀ x ∈ Slot.all, bareHeap.contains x.address = true := by decide
    exact hall x hx
  exact hs.keepsObjects.contains x.address hbare

/-- A registration that succeeds has installed every built-in, and one that cannot fails,
provided that no setter takes one of its writes. When it succeeds, each slot of the two
prototypes is a data property with a function that was not there before and that has the
name, the number of parameters and the behaviour of the method; a data property that was
there keeps its flags, and every other is writable, not enumerable and not locked, so that
none shows in enumerations that did not before. When it fails, it is for a slot that was not
open. -/
theorem registration_installs_or_fails (hs : Reachable l s)
    (hsetter : ∀ x ∈ Slot.all, ¬ x.MeetsSetter s.heap) (n : Nat) :
    (∃ t, (dispatch n).register .all s = (.done (), t) ∧ ∀ x ∈ Slot.all,
      (∃ f, x.HoldsNew s.heap t.heap f) ∧
      ∀ d, (t.heap.get x.address).own? x.key = some (.data d) → d.enumerable = true →
        ∃ d', (s.heap.get x.address).own? x.key = some (.data d') ∧ d'.enumerable = true) ∨
    ∃ x ∈ Slot.all, ¬ x.Open s.heap ∧
      ∃ t, (dispatch n).register .all s = (.aborted x.failure, t) := by
  rw [Invoker.register_all]
  refine (fill_cases n hs (fun x hx => hs.contains_slot hx) hsetter Slot.apart_all).imp_left ?_
  rintro ⟨t, ht, _, hall⟩
  refine ⟨t, ht, fun x hx => ⟨hall.holds x hx, fun d hd hshown => ?_⟩⟩
  obtain ⟨f, hf⟩ := hall.holds x hx
  rw [hf.own] at hd
  rcases hold : (s.heap.get x.address).own? x.key with _ | d' | a <;> rw [hold] at hd <;>
    cases hd
  · cases hshown
  · exact ⟨d', rfl, hshown⟩
  · cases hshown

/-- A fresh machine on which `call` was deleted. -/
def withoutCall : Machine :=
  (Script.run 1 (fresh .standard)
    [.access (.delete (.named "FunctionPrototype") (.ofString "call") false)]).2

/-- It comes back as it was made first. -/
theorem call_comes_back :
    Reachable .standard withoutCall ∧ (∀ x ∈ Slot.all, ¬ x.MeetsSetter withoutCall.heap) ∧
      (withoutCall.heap.get .functionPrototype).own? (.ofString "call") = none ∧
      ∃ t f, (dispatch 1).register .all withoutCall = (.done (), t) ∧
        (t.heap.get .functionPrototype).own? (.ofString "call") =
          some (.data ⟨.object f, true, false, true⟩) ∧
        (t.heap.get f).callable = some (.native ⟨"call", 1, .builtin .call, none⟩) := by
  have hs : Reachable .standard withoutCall := .run 1 _
  have hsetter : ∀ x ∈ Slot.all, ¬ x.MeetsSetter withoutCall.heap := by decide +kernel
  have hopen : ∀ x ∈ Slot.all, x.Open withoutCall.heap := by decide +kernel
  have hgone : (withoutCall.heap.get .functionPrototype).own? (.ofString "call") = none := by
    decide +kernel
  refine ⟨hs, hsetter, hgone, ?_⟩
  rcases registration_installs_or_fails hs hsetter 1 with ⟨t, ht, hall⟩ | ⟨x, hx, hclosed, _⟩
  · let x : Slot := ⟨.function, "call", 1, .call⟩
    have hx : x ∈ Slot.all :=
      List.mem_append_right _ (List.mem_map.mpr ⟨⟨"call", 1, .call⟩, by decide, rfl⟩)
    obtain ⟨f, hf⟩ := (hall x hx).1
    have hown := hf.own
    rw [show (withoutCall.heap.get x.address).own? x.key = none from hgone] at hown
    exact ⟨t, f, ht, hown, hf.callable⟩
  · exact absurd (hopen x hx) hclosed

/-- A fresh machine on which a setter stands in the place of `valueOf`, and `call` was
shown. -/
def withSetter : Machine :=
  (Script.run 1 (fresh .standard)
    [.access (.define (.named "ObjectPrototype") .valueOfMethod
      ⟨.accessor, none, none, none, some (some (.named "FunctionPrototype")), none, none⟩
      false false),
    .access (.define (.named "FunctionPrototype") (.ofString "call")
      ⟨.data, none, none, none, none, some true, none⟩ false false)]).2

/-- The setter swallows the method, `call` stays shown, and the registration succeeds. -/
theorem setter_swallows_method :
    Reachable .standard withSetter ∧
      ((dispatch 2).register .all withSetter).1 = .done () ∧
      (((dispatch 2).register .all withSetter).2.heap.get .objectPrototype).own?
          .valueOfMethod =
        some (.accessor ⟨none, some .functionPrototype, false, true⟩) ∧
      ((((dispatch 2).register .all withSetter).2.heap.get .functionPrototype).own?
        (.ofString "call")).map Property.enumerable = some true :=
  ⟨.run 1 _, by decide +kernel⟩

end Machine
end ScriptModel
