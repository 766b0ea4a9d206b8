import ScriptModel.Proofs.Heap.Release
import ScriptModel.Proofs.Machine.Writing

/-!
# Objects that take no properties

An object that takes no properties goes on taking none, and gets no other prototype,
whatever runs: of all that is done to a heap only an override could give it a property, and
each override leaves its mark in the trace. It may lose properties that are not locked, and
the link to its prototype, but that only at a sweep of the run at which nothing holds the
prototype.
-/

namespace ScriptModel

/-! ## One object -/

namespace Object

variable {o obj : Object} {k l : Key} {f : Fragment}

theorem hasOwn_of_define (hclosed : o.extensible = false)
    (hd : o.define k f false = .ok obj) (hl : obj.hasOwn l = true) : o.hasOwn l = true := by
  obtain ⟨p, hp⟩ := hasOwn_iff.mp hl
  by_cases hlk : l = k
  · -- The key had a property before, or else the definition would have been refused.
    by_contra hno
    have hnone : o.own? k = none := by
      rw [← hlk]
      exact own?_eq_none_iff.mpr hno
    have hrefused : ¬ o.Admits k f false := by simp [admits_new hnone, hclosed]
    rw [define_of_not_admits hrefused] at hd
    cases hd
  · rw [own?_of_define_ne hd hlk] at hp
    exact hasOwn_iff.mpr ⟨p, hp⟩

theorem hasOwn_of_delete (hd : o.delete k = .ok obj) (hl : obj.hasOwn l = true) :
    o.hasOwn l = true := by
  obtain ⟨p, hp⟩ := hasOwn_iff.mp hl
  by_cases hlk : l = k
  · rw [hlk, own?_of_delete_self hd] at hp
    cases hp
  · rw [own?_of_delete_ne hd hlk] at hp
    exact hasOwn_iff.mpr ⟨p, hp⟩

end Object

namespace Machine

variable {o : Address} {s t u : Machine}

/-! ## One move -/

/-- The move is a sweep, at which nothing holds the object any more. -/
def SweepsAway (p : Address) (s t : Machine) : Prop :=
  ∃ inHand : List Value, t = s.sweep inHand ∧
    ¬ s.heap.Lives (s.roots ++ inHand.filterMap Value.address?) p

theorem trace_sweep (s : Machine) (inHand : List Value) :
    (s.sweep inHand).trace = s.trace := rfl

/-- After the move the object takes no properties, has gained none by it, and has kept its
prototype, unless the move has swept that away. -/
structure StillClosed (o : Address) (s t : Machine) : Prop where
  extensible : (t.heap.get o).extensible = false
  keys : ∀ k, (t.heap.get o).hasOwn k = true → (s.heap.get o).hasOwn k = true
  proto : (t.heap.get o).proto = (s.heap.get o).proto ∨
    ∃ p, (s.heap.get o).proto = some p ∧ (t.heap.get o).proto = none ∧ SweepsAway p s t

namespace StillClosed

theorem of_object (hclosed : (s.heap.get o).extensible = false)
    (hget : t.heap.get o = s.heap.get o) : StillClosed o s t := by
  refine ⟨?_, fun k hk => ?_, .inl ?_⟩
  · rw [hget]
    exact hclosed
  · rwa [hget] at hk
  · rw [hget]

/-- Storing another object in the place of one changes that one alone. -/
theorem set {a : Address} {obj : Object} (ho : s.heap.contains o = true)
    (hclosed : (s.heap.get o).extensible = false)
    (hobj : a = o → obj = { s.heap.get o with table := obj.table } ∧
      ∀ k, obj.hasOwn k = true → (s.heap.get o).hasOwn k = true)
    (ht : t.heap = s.heap.set a obj) : StillClosed o s t := by
  by_cases ha : a = o
  · obtain ⟨htable, hkeys⟩ := hobj ha
    have hget : t.heap.get o = obj := by
      rw [ht, ha, Heap.get_set, if_pos ⟨rfl, ho⟩]
    refine ⟨?_, fun k hk => ?_, .inl ?_⟩
    · rw [hget, htable]
      exact hclosed
    · rw [hget] at hk
      exact hkeys k hk
    · rw [hget, htable]
  · refine .of_object hclosed ?_
    rw [ht, Heap.get_set, if_neg fun h => ha h.1.symm]

theorem sweep (hclosed : (s.heap.get o).extensible = false) (inHand : List Value) :
    StillClosed o s (s.sweep inHand) := by
  let roots := s.roots ++ inHand.filterMap Value.address?
  have hget : (s.sweep inHand).heap.get o = { s.heap.get o with
      proto := (s.heap.get o).proto.filter fun a =>
        (s.heap.living roots).getD a.index false } := by
    simp only [Machine.sweep, withHeap, Heap.release_eq_unlink, Heap.get_unlink, roots]
  have hproto := congrArg Object.proto hget
  dsimp only at hproto
  refine ⟨?_, fun k hk => ?_, ?_⟩
  · rw [hget]
    exact hclosed
  · rwa [hget] at hk
  · cases hp : (s.heap.get o).proto with
    | none =>
      rw [hp] at hproto
      exact .inl hproto
    | some p =>
      rw [hp, Option.filter] at hproto
      by_cases hlives : s.heap.Lives roots p
      · exact .inl (hproto.trans (if_pos hlives))
      · exact .inr ⟨p, rfl, hproto.trans (if_neg hlives), inHand, rfl, hlives⟩

end StillClosed

/-- The trace only grows, and unless an override of the object is noted, the object stays
closed. -/
def Guards (o : Address) (s t : Machine) : Prop :=
  ∃ es, t.trace = es ++ s.trace ∧ (Event.overrode o ∉ es → s.heap.contains o = true →
    (s.heap.get o).extensible = false → StillClosed o s t)

theorem Guards.of_object (es : List Event) (htrace : t.trace = es ++ s.trace)
    (hget : s.heap.contains o = true → t.heap.get o = s.heap.get o) : Guards o s t :=
  ⟨es, htrace, fun _ ho hclosed => .of_object hclosed (hget ho)⟩

theorem Act.guards (h : Act s t) : Guards o s t := by
  cases h with
  | note e he => exact .of_object [e] rfl fun _ => rfl
  | aside names diagnostics => exact .of_object [] rfl fun _ => rfl
  | hold vs => exact .of_object [] rfl fun _ => rfl
  | sweep inHand => exact ⟨[], rfl, fun _ _ hclosed => .sweep hclosed inHand⟩
  | alloc obj => exact .of_object [] rfl fun ho => Heap.get_alloc_of_contains obj ho
  | define hd =>
    refine ⟨[], rfl, fun _ ho hclosed => .set ho hclosed (fun ha => ?_) rfl⟩
    subst ha
    exact ⟨Object.table_of_define hd, fun k hk => Object.hasOwn_of_define hclosed hd hk⟩
  | override hd =>
    refine ⟨[_], rfl, fun hnone ho hclosed => .set ho hclosed (fun ha => ?_) rfl⟩
    exact absurd (List.mem_singleton.mpr (congrArg Event.overrode ha.symm)) hnone
  | delete hd =>
    refine ⟨[], rfl, fun _ ho hclosed => .set ho hclosed (fun ha => ?_) rfl⟩
    subst ha
    exact ⟨Object.table_of_delete hd, fun k hk => Object.hasOwn_of_delete hd hk⟩
  | preventExtensions a =>
    refine ⟨[], rfl, fun _ ho hclosed => .of_object hclosed ?_⟩
    simp only [withHeap, Heap.get_modify]
    split
    · rw [← hclosed]
    · rfl
  | setPrototype hp =>
    refine ⟨[], rfl, fun _ ho hclosed => .of_object hclosed ?_⟩
    rcases Heap.setPrototype_eq_some hp with ⟨rfl, _⟩ | ⟨rfl, hopen, _⟩
    · rfl
    · -- The object that gets another prototype takes properties.
      simp only [withHeap, Heap.get_relink]
      refine if_neg fun h => ?_
      rw [← h.1, hclosed] at hopen
      cases hopen

theorem Move.guards (h : Move s t) : Guards o s t := by
  cases h with
  | act ha => exact ha.guards
  | enter ha => exact .of_object [_] rfl fun _ => rfl
  | leave => exact .of_object [_] rfl fun _ => rfl
  | refuse ha => exact .of_object [_] rfl fun _ => rfl

/-! ## All runs -/

namespace Timeline

/-- At this moment of the run the object still has its prototype, which nothing holds any
more, and the next move sweeps. -/
structure Orphans (T : Timeline s t) (o p : Address) (i : Nat) : Prop where
  linked : ((T.moment i).heap.get o).proto = some p
  sweepsAway : SweepsAway p (T.moment i) (T.moment (i + 1))

/-- At this moment of the run the object takes no properties, has gained none since the
beginning, and has the prototype that it had then, unless that died at an earlier moment. -/
structure StaysClosed (T : Timeline s t) (o : Address) (m : Nat) : Prop where
  extensible : ((T.moment m).heap.get o).extensible = false
  keys : ∀ k, ((T.moment m).heap.get o).hasOwn k = true → (s.heap.get o).hasOwn k = true
  proto : ((T.moment m).heap.get o).proto = (s.heap.get o).proto ∨
    ∃ p, (s.heap.get o).proto = some p ∧ ((T.moment m).heap.get o).proto = none ∧
      ∃ i < m, T.Orphans o p i

theorem staysClosed_zero (T : Timeline s t) (hclosed : (s.heap.get o).extensible = false) :
    T.StaysClosed o 0 := by
  refine ⟨?_, fun k hk => ?_, .inl ?_⟩
  · rw [T.first]
    exact hclosed
  · rwa [T.first] at hk
  · rw [T.first]

/-- One move more. -/
theorem StaysClosed.succ {T : Timeline s t} {m : Nat} (h : T.StaysClosed o m)
    (hmove : StillClosed o (T.moment m) (T.moment (m + 1))) : T.StaysClosed o (m + 1) := by
  refine ⟨hmove.extensible, fun k hk => h.keys k (hmove.keys k hk), ?_⟩
  rcases hmove.proto with hsame | ⟨p, hlinked, hnone, hsweep⟩
  · rcases h.proto with hkept | ⟨p, hp, hnone, i, hi, horphans⟩
    · exact .inl (hsame.trans hkept)
    · exact .inr ⟨p, hp, hsame.trans hnone, i, by omega, horphans⟩
  · rcases h.proto with hkept | ⟨_, _, hgone, _⟩
    · exact .inr ⟨p, hkept.symm.trans hlinked, hnone, m, by omega, hlinked, hsweep⟩
    · rw [hgone] at hlinked
      cases hlinked

/-- The trace only grows, and up to every moment by which no override of the object is
noted, the object has stayed closed. -/
theorem guards (T : Timeline s t) {m : Nat} (hm : m ≤ T.length) :
    ∃ es, (T.moment m).trace = es ++ s.trace ∧ (Event.overrode o ∉ es →
      s.heap.contains o = true → (s.heap.get o).extensible = false →
        ∀ n ≤ m, T.StaysClosed o n) := by
  induction m with
  | zero =>
    refine ⟨[], by rw [T.first]; rfl, fun _ _ hclosed n hn => ?_⟩
    rw [Nat.le_zero.mp hn]
    exact T.staysClosed_zero hclosed
  | succ m ih =>
    obtain ⟨es, htrace, hstays⟩ := ih (by omega)
    obtain ⟨es', htrace', hmove⟩ := (T.move m hm).guards (o := o)
    refine ⟨es' ++ es, ?_, fun hnone ho hclosed n hn => ?_⟩
    · rw [htrace', htrace, List.append_assoc]
    · have hstays := hstays (fun h => hnone (List.mem_append_right _ h)) ho hclosed
      rcases Nat.le_succ_iff.mp hn with hle | rfl
      · exact hstays n hle
      · have hlast := hstays m le_rfl
        have ho' : (T.moment m).heap.contains o = true :=
          (Path.keepsObjects (T.path (by omega))).contains o ho
        exact hlast.succ
          (hmove (fun h => hnone (List.mem_append_left _ h)) ho' hlast.extensible)

end Timeline

/-! ## Requests -/

/-- A definition leaves a mark exactly when it overrides. -/
theorem trace_define (o : Address) (k : Key) (f : Fragment) (throws overrides : Bool)
    (s : Machine) : (Run.define o k f throws overrides s).2.trace =
      if overrides then .overrode o :: s.trace else s.trace := by
  have hnoting : (s.noting o overrides).trace =
      if overrides then .overrode o :: s.trace else s.trace := by
    cases overrides <;> rfl
  rw [Run.define_apply]
  split
  · exact hnoting
  · rw [Run.machine_reject]
    exact hnoting

section Closed

variable (hclosed : (s.heap.get o).extensible = false) {k : Key}
include hclosed

/-- A new property is refused to an object that takes none. -/
theorem define_of_closed (hnone : (s.heap.get o).own? k = none) (f : Fragment)
    (throws : Bool) :
    Run.define o k f throws false s = Run.reject throws (.cannotDefine k) s := by
  have hrefused : ¬ (s.heap.get o).Admits k f false := by
    simp [Object.admits_new hnone, hclosed]
  rw [Run.define_of_not_admits throws hrefused, Object.refusal,
    if_neg (Object.own?_eq_none_iff.mp hnone)]
  rfl

theorem put_of_closed (hh : s.heap.Acyclic) (hnone : (s.heap.get o).own? k = none)
    (hdata : ∀ b a, ¬ s.heap.Finds k o b (.accessor a)) (inv : Invoker) (v : Value)
    (throws : Bool) : ∃ e ∈ [Exception.readOnly k, .cannotAdd k], e.kind = .typeError ∧
      inv.put o k v throws false s = Run.reject throws e s := by
  by_cases hlocked : ∃ b d, s.heap.Finds k o b (.data d) ∧ d.writable = false
  · obtain ⟨b, d, hf, hw⟩ := hlocked
    refine ⟨.readOnly k, by simp, rfl, ?_⟩
    exact Invoker.put_of_inherited_readOnly inv v throws false (hf.ne_of_own hnone)
      (hh.find?_iff.mpr hf) hw rfl
  · refine ⟨.cannotAdd k, by simp, rfl, ?_⟩
    rw [Invoker.put_of_free inv v throws false hnone,
      Run.add_of_closed v throws (by simp [hclosed])]
    intro b p hfind
    have hf := hh.find?_iff.mp hfind
    cases p with
    | accessor a => exact absurd hf (hdata b a)
    | data d =>
      have hw : d.writable = true := by
        cases hw : d.writable with
        | true => rfl
        | false => exact absurd ⟨b, d, hf, hw⟩ hlocked
      exact ⟨d, rfl, .inl hw⟩

end Closed

/-- An object that takes no properties neither grows nor gets another prototype. Take any
run of the machine, move by move, in which no override of the object was asked for and noted
in the trace. At every moment of it the object takes no properties still, has gained none,
and has the prototype that it had, or none if at an earlier moment of this run a sweep found
the prototype held by nothing. At its end none of the properties that were locked is lost; a
definition of a property that the object has not is refused, and so is a write that would
have to make one, with a type error or by answering `false`, and nothing changes; a write
that meets a setter still runs the setter. -/
theorem closed_object_stays {l : Limits} (hs : Reachable l s)
    (ho : s.heap.contains o = true) (hclosed : (s.heap.get o).extensible = false) :
    (∀ (t : Machine) (k : Key) (f : Fragment) (throws overrides : Bool),
      (Run.define o k f throws overrides t).2.trace =
        if overrides then .overrode o :: t.trace else t.trace) ∧
    (∀ t, Path s t → Nonempty (Timeline s t)) ∧
    ∀ t (T : Timeline s t), ∃ es, t.trace = es ++ s.trace ∧ (Event.overrode o ∉ es →
      (∀ m ≤ T.length, T.StaysClosed o m) ∧
      (∀ k p, (s.heap.get o).own? k = some p → (t.heap.get o).own? k = none →
        p.configurable = true) ∧
      (∀ (k : Key) (f : Fragment) (throws : Bool), (t.heap.get o).own? k = none →
        (Exception.cannotDefine k).kind = .typeError ∧
          Run.define o k f throws false t = Run.reject throws (.cannotDefine k) t) ∧
      (∀ (inv : Invoker) (k : Key) (v : Value) (throws : Bool), (t.heap.get o).own? k = none →
        (∀ b a, ¬ t.heap.Finds k o b (.accessor a)) →
        ∃ e ∈ [Exception.readOnly k, .cannotAdd k], e.kind = .typeError ∧
          inv.put o k v throws false t = Run.reject throws e t) ∧
      ∀ (inv : Invoker) (k : Key) (v : Value) (throws overrides : Bool) (b : Address)
        (a : AccessorProperty) (f : Address),
        t.heap.Finds k o b (.accessor a) → a.setter = some f →
          inv.put o k v throws overrides t = inv.setBy o b a f v t) := by
  refine ⟨fun t k f throws overrides => trace_define o k f throws overrides t,
    fun t => Path.timeline, fun t T => ?_⟩
  have ht : Path s t := T.last ▸ T.path le_rfl
  have hh : t.heap.Acyclic := (hs.path ht).sound.acyclic
  obtain ⟨es, htrace, hstays⟩ := T.guards (o := o) le_rfl
  rw [T.last] at htrace
  refine ⟨es, htrace, fun hnone => ?_⟩
  have hstays := hstays hnone ho hclosed
  have hextensible := (hstays T.length le_rfl).extensible
  rw [T.last] at hextensible
  refine ⟨hstays, fun k p hp hgone => ?_, fun k f throws hk => ?_,
    fun inv k v throws hk hdata => ?_, fun inv k v throws overrides b a f hf hset => ?_⟩
  · by_contra hlocked
    obtain ⟨q, hq, -⟩ := ht.keepsLocks o k p hp (by simpa using hlocked)
    rw [hgone] at hq
    cases hq
  · exact ⟨rfl, define_of_closed hextensible hk f throws⟩
  · exact put_of_closed hextensible hh hk hdata inv v throws
  · exact Invoker.put_of_setter inv v throws overrides (hh.find?_iff.mpr hf) hset

/-- A named object that takes no properties loses its prototype at the sweep that finds that
one without a holder. It takes no properties afterwards either. -/
theorem closed_object_outlives_prototype :
    let p := (fresh .standard).heap.next
    let above := (Run.alloc (.ofClass .object (some .objectPrototype)) (fresh .standard)).2
    let o := above.heap.next
    let below := (Run.alloc (.ofClass .object (some p)) above).2
    let s := (Run.preventExtensions o below).2.keep "o" (.object o)
    let t := s.sweep []
    Reachable .standard s ∧ s.heap.contains o = true ∧ (s.heap.get o).extensible = false ∧
      (s.heap.get o).proto = some p ∧ (t.heap.get o).proto = none ∧
      (∃ T : Timeline s t, T.length = 1 ∧ T.StaysClosed o 1 ∧ T.Orphans o p 0) ∧
      Run.define o (.name "x") (.valueOnly .null) false false t = (.done false, t) := by
  intro p above o below s t
  have hs : Reachable .standard s :=
    .move (.move (.move (.move .fresh (.act (.alloc _))) (.act (.alloc _)))
      (.act (.preventExtensions o))) (.act (.aside _ _))
  obtain ⟨ho, hclosed, hlinked, hcut, hnone⟩ : s.heap.contains o = true ∧
      (s.heap.get o).extensible = false ∧ (s.heap.get o).proto = some p ∧
      (t.heap.get o).proto = none ∧ (t.heap.get o).own? (.name "x") = none := by
        decide +kernel
  let T : Timeline s t := (Timeline.still s).extend (.act (.sweep []))
  obtain ⟨_, _, hruns⟩ := closed_object_stays hs ho hclosed
  obtain ⟨es, htrace, hquiet⟩ := hruns t T
  have hes : es = [] := List.append_left_eq_self.mp (htrace.symm.trans (trace_sweep s []))
  obtain ⟨hstays, _, hdefine, _⟩ := hquiet (by simp [hes])
  have hstay := hstays 1 le_rfl
  refine ⟨hs, ho, hclosed, hlinked, hcut, ⟨T, rfl, hstay, ?_⟩,
    (hdefine (.name "x") (.valueOnly .null) false hnone).2⟩
  have hend : (T.moment 1).heap.get o = t.heap.get o := by
    rw [show T.moment 1 = t from T.last]
  rcases hstay.proto with hsame | ⟨q, hq, _, i, hi, horphans⟩
  · rw [hend, hcut, hlinked] at hsame
    cases hsame
  · rw [hlinked] at hq
    cases hq
    rwa [Nat.lt_one_iff.mp hi] at horphans

end Machine
end ScriptModel
