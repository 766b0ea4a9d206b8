import ScriptModel.Proofs.Machine.InstanceTest
import ScriptModel.Proofs.Machine.Reading

/-!
# How an object converts

An object converts by way of its methods, tried one after another. Each is read once, and
called once if it can be. `Converts` says so rule by rule, and it is what the conversion
does. A value that is no object converts without any of this.
-/

namespace ScriptModel

/-! ## Computations that end without a result -/

namespace Outcome

variable {α β γ : Type} {r : Outcome α}

/-- There is no result. -/
def Fails (r : Outcome α) : Prop := ∀ a, r ≠ .done a

theorem done_or_fails (r : Outcome α) : (∃ a, r = .done a) ∨ r.Fails := by
  cases r with
  | done a => exact .inl ⟨a, rfl⟩
  | _ => exact .inr nofun

theorem map_id (r : Outcome α) : r.map (fun a => a) = r := by
  cases r <;> rfl

theorem map_map (r : Outcome α) (g : α → β) (g' : β → γ) :
    (r.map g).map g' = r.map fun a => g' (g a) := by
  cases r <;> rfl

theorem Fails.map (hr : r.Fails) (g : α → β) : (r.map g).Fails := by
  cases r with
  | done a => exact absurd rfl (hr a)
  | _ => exact nofun

theorem Fails.map_eq (hr : r.Fails) (g : α → α) : r.map g = r := by
  cases r with
  | done a => exact absurd rfl (hr a)
  | _ => rfl

end Outcome

namespace Run

variable {α β : Type} {x : Run α} {s t : Machine} {r : Outcome α}

/-- What comes without a result goes past all that waits for one. -/
theorem bind_of_fails (f : α → Run β) (g : α → β) (h : x s = (r, t)) (hr : r.Fails) :
    (x >>= f) s = (r.map g, t) := by
  cases r with
  | done a => exact absurd rfl (hr a)
  | raised e => exact bind_of_raised f h
  | aborted e => exact bind_of_aborted f h
  | exhausted => exact bind_of_exhausted f h

theorem swept_of_fails (inHand : α → List Value) (h : x s = (r, t)) (hr : r.Fails) :
    swept inHand x s = (r, t.sweep []) := by
  unfold swept
  rw [h]
  cases r with
  | done a => exact absurd rfl (hr a)
  | _ => rfl

end Run

/-! ## Methods tried in turn -/

/-- The value is a function. -/
def Value.IsCallable (h : Heap) (v : Value) : Prop :=
  ∃ f, v = .object f ∧ (h.get f).isCallable = true

/-- The value, unless it is an object. -/
def Value.primitive? (v : Value) : Option Value := if v.isObject then none else some v

namespace Invoker

variable (inv : Invoker)

/-- The object converts by the methods, tried in turn: to what, and on which machine it
ends. Each method is read from the object. An undetermined one leaves the result
undetermined; a function is called with the object as its receiver and no arguments, and
what it comes to is the result unless it is an object. In every other case the next method
is tried, and an exception is raised when there is none. -/
inductive Converts (o : Address) : List Key → Machine → Outcome Value → Machine → Prop where
  | nothing {s : Machine} : Converts o [] s (.raised .noPrimitive) s
  | unread {k : Key} {ks : List Key} {s t : Machine} {r : Outcome Value} :
    inv.get o k s = (r, t) → r.Fails → Converts o (k :: ks) s r (t.sweep [])
  | undetermined {k : Key} {ks : List Key} {s t : Machine} :
    inv.get o k s = (.done .unknown, t) →
      Converts o (k :: ks) s (.done .unknown) (t.sweep [])
  | called {k : Key} {ks : List Key} {s t u : Machine} {f : Address} {r : Outcome Value} :
    inv.get o k s = (.done (.object f), t) → (t.heap.get f).isCallable = true →
      inv.call f (.object o) [] t = (r, u) → (∀ a, r ≠ .done (.object a)) →
        Converts o (k :: ks) s r (u.sweep [])
  | object {k : Key} {ks : List Key} {s t u w : Machine} {f a : Address} {r : Outcome Value} :
    inv.get o k s = (.done (.object f), t) → (t.heap.get f).isCallable = true →
      inv.call f (.object o) [] t = (.done (.object a), u) →
        Converts o ks (u.sweep []) r w → Converts o (k :: ks) s r w
  | passed {k : Key} {ks : List Key} {s t w : Machine} {v : Value} {r : Outcome Value} :
    inv.get o k s = (.done v, t) → v ≠ .unknown → ¬ v.IsCallable t.heap →
      Converts o ks (t.sweep []) r w → Converts o (k :: ks) s r w

variable {inv} {o : Address} {k : Key} {ks : List Key} {s t u : Machine} {f : Address}
  {r : Outcome Value} {v : Value}

/-- A function that is called decides with what it comes to. -/
theorem primitiveBy?_of_call (hget : inv.get o k s = (.done (.object f), t))
    (hf : (t.heap.get f).isCallable = true) (hcall : inv.call f (.object o) [] t = (r, u)) :
    inv.primitiveBy? o k s = (r.map Value.primitive?, u) := by
  refine (Run.bind_of_done _ hget).trans ?_
  refine (Run.bind_of_done _ (Run.isCallable_object hf)).trans ?_
  refine (Run.map_apply Value.primitive? _ t).trans ?_
  rw [hcall]

/-- What is no function decides nothing. -/
theorem primitiveBy?_of_not_callable (hget : inv.get o k s = (.done v, t))
    (hv : v ≠ .unknown)
    (hnot : ¬ v.IsCallable t.heap) : inv.primitiveBy? o k s = (.done none, t) := by
  refine (Run.bind_of_done _ hget).trans ?_
  cases v with
  | unknown => exact absurd rfl hv
  | object f =>
    have hf : (t.heap.get f).isCallable = false := by
      cases hf : (t.heap.get f).isCallable with
      | false => rfl
      | true => exact absurd ⟨f, rfl, hf⟩ hnot
    exact Run.bind_of_done _ (Run.isCallable_object hf)
  | _ => rfl

/-- A method that decides ends the search. -/
theorem firstPrimitive_of_some (h : inv.primitiveBy? o k s = (.done (some v), t)) :
    inv.firstPrimitive o (k :: ks) s = (.done v, t.sweep [v]) :=
  Run.bind_of_done _ (Run.swept_of_done h)

/-- A method that decides nothing passes it on. -/
theorem firstPrimitive_of_none (h : inv.primitiveBy? o k s = (.done none, t)) :
    inv.firstPrimitive o (k :: ks) s = inv.firstPrimitive o ks (t.sweep []) :=
  Run.bind_of_done _ (Run.swept_of_done h)

/-- A method that comes to no result is the end. -/
theorem firstPrimitive_of_fails (h : inv.primitiveBy? o k s = (r.map some, t))
    (hr : r.Fails) : inv.firstPrimitive o (k :: ks) s = (r, t.sweep []) := by
  have hswept := Run.swept_of_fails Option.toList h (hr.map some)
  refine (Run.bind_of_fails _ (Option.getD · .unknown) hswept (hr.map some)).trans ?_
  rw [Outcome.map_map, hr.map_eq]

theorem sweep_of_not_object (hv : v.isObject = false) (s : Machine) :
    s.sweep [v] = s.sweep [] := by
  cases v with
  | object a => cases hv
  | _ => rfl

/-- The rules say what is done. -/
theorem Converts.firstPrimitive_eq (h : inv.Converts o ks s r t) :
    inv.firstPrimitive o ks s = (r, t) := by
  induction h with
  | nothing => rfl
  | unread hget hr => exact firstPrimitive_of_fails (Run.bind_of_fails _ some hget hr) hr
  | undetermined hget => exact firstPrimitive_of_some (Run.bind_of_done _ hget)
  | @called k ks s t u f r hget hf hcall hr =>
    have hby := primitiveBy?_of_call hget hf hcall
    rcases r.done_or_fails with ⟨v, rfl⟩ | hfails
    · have hv : v.isObject = false := by
        cases v with
        | object a => exact absurd rfl (hr a)
        | _ => rfl
      rw [Outcome.map, Value.primitive?, hv] at hby
      rw [firstPrimitive_of_some hby, sweep_of_not_object hv]
    · have hsome : r.map Value.primitive? = r.map some := by
        cases r with
        | done v => exact absurd rfl (hfails v)
        | _ => rfl
      exact firstPrimitive_of_fails (hby.trans (by rw [hsome])) hfails
  | object hget hf hcall _ ih =>
    exact (firstPrimitive_of_none (primitiveBy?_of_call hget hf hcall)).trans ih
  | passed hget hv hnot _ ih =>
    exact (firstPrimitive_of_none (primitiveBy?_of_not_callable hget hv hnot)).trans ih

/-- One rule or another applies, all the way. -/
theorem exists_converts (inv : Invoker) (o : Address) (ks : List Key) (s : Machine) :
    ∃ r t, inv.Converts o ks s r t := by
  induction ks generalizing s with
  | nil => exact ⟨_, _, .nothing⟩
  | cons k ks ih =>
    rcases hget : inv.get o k s with ⟨r, t⟩
    rcases r.done_or_fails with ⟨v, rfl⟩ | hr
    · by_cases hv : v = .unknown
      · exact ⟨_, _, .undetermined (hv ▸ hget)⟩
      by_cases hcallable : v.IsCallable t.heap
      · obtain ⟨f, rfl, hf⟩ := hcallable
        rcases hcall : inv.call f (.object o) [] t with ⟨r, u⟩
        by_cases hobject : ∃ a, r = .done (.object a)
        · obtain ⟨a, rfl⟩ := hobject
          obtain ⟨r, w, hrest⟩ := ih (u.sweep [])
          exact ⟨r, w, .object hget hf hcall hrest⟩
        · exact ⟨_, _, .called hget hf hcall fun a ha => hobject ⟨a, ha⟩⟩
      · obtain ⟨r, w, hrest⟩ := ih (t.sweep [])
        exact ⟨r, w, .passed hget hv hcallable hrest⟩
    · exact ⟨_, _, .unread hget hr⟩

theorem firstPrimitive_eq_iff :
    inv.firstPrimitive o ks s = (r, t) ↔ inv.Converts o ks s r t := by
  refine ⟨fun h => ?_, Converts.firstPrimitive_eq⟩
  obtain ⟨r', t', hconverts⟩ := exists_converts inv o ks s
  cases h.symm.trans hconverts.firstPrimitive_eq
  exact hconverts

/-- No rule lets an object be the result. -/
theorem Converts.ne_object (h : inv.Converts o ks s r t) (a : Address) :
    r ≠ .done (.object a) := by
  induction h with
  | nothing => exact nofun
  | unread _ hr => exact hr _
  | undetermined _ => exact nofun
  | called _ _ _ hr => exact hr a
  | object _ _ _ _ ih => exact ih
  | passed _ _ _ _ ih => exact ih

/-! ## Primitive values -/

/-- An object converts by the methods in the order of the hint. It is held meanwhile. -/
theorem toPrimitive_object_eq_iff {hint : Hint} :
    inv.toPrimitive (.object o) hint s = (r, t) ↔
    ∃ u, inv.Converts o hint.order (s.withHeld (.object o :: s.held)) r u ∧
      t = u.withHeld s.held := by
  rcases hfirst : inv.firstPrimitive o hint.order (s.withHeld (.object o :: s.held)) with ⟨p, u⟩
  have hprimitive : inv.toPrimitive (.object o) hint s = (p, u.withHeld s.held) :=
    Run.holding_of_eq hfirst
  rw [hprimitive]
  constructor
  · intro h
    cases h
    exact ⟨u, firstPrimitive_eq_iff.mp hfirst, rfl⟩
  · rintro ⟨u', hconverts, rfl⟩
    cases hfirst.symm.trans hconverts.firstPrimitive_eq
    rfl

theorem toPrimitive_of_not_object (hv : v.isObject = false) (hint : Hint) :
    inv.toPrimitive v hint = pure v := by
  cases v with
  | object a => cases hv
  | _ => rfl

theorem toPrimitive_ne_object (inv : Invoker) (v : Value) (hint : Hint) (s : Machine)
    (a : Address) : (inv.toPrimitive v hint s).1 ≠ .done (.object a) := by
  cases hv : v.isObject with
  | true =>
    cases v with
    | object o =>
      obtain ⟨u, hconverts, -⟩ := toPrimitive_object_eq_iff.mp (Prod.mk.eta (p :=
        inv.toPrimitive (.object o) hint s)).symm
      exact hconverts.ne_object a
    | _ => cases hv
  | false =>
    rw [toPrimitive_of_not_object hv]
    intro h
    cases h
    cases hv

/-- What follows a conversion to a primitive value need not be said of objects. -/
theorem toPrimitive_bind_congr {α : Type} {f g : Value → Run α}
    (h : ∀ w : Value, w.isObject = false → f w = g w) (v : Value) (hint : Hint) :
    inv.toPrimitive v hint >>= f = inv.toPrimitive v hint >>= g := by
  funext s
  rcases hprimitive : inv.toPrimitive v hint s with ⟨r, t⟩
  cases r with
  | done w =>
    have hw : w.isObject = false := by
      cases w with
      | object a =>
        exact absurd (congrArg Prod.fst hprimitive) (toPrimitive_ne_object inv v hint s a)
      | _ => rfl
    rw [Run.bind_of_done f hprimitive, Run.bind_of_done g hprimitive, h w hw]
  | raised e => rw [Run.bind_of_raised f hprimitive, Run.bind_of_raised g hprimitive]
  | aborted e => rw [Run.bind_of_aborted f hprimitive, Run.bind_of_aborted g hprimitive]
  | exhausted => rw [Run.bind_of_exhausted f hprimitive, Run.bind_of_exhausted g hprimitive]

/-! ## Numbers -/

/-- The number of a value is that of what it converts to. -/
theorem toNumber_apply (inv : Invoker) (v : Value) (s : Machine) : inv.toNumber v s =
    ((inv.toPrimitive v .number s).1.map Value.primitiveNumber,
      (inv.toPrimitive v .number s).2) :=
  Run.map_apply _ _ s

theorem toNumber_of_not_object (hv : v.isObject = false) :
    inv.toNumber v = pure v.primitiveNumber := by
  rw [toNumber, toPrimitive_of_not_object hv]
  rfl

/-- Conversion as a recursion, which ends after one step: an object has the number that the
primitive value has to which it converts. -/
theorem toNumber_object (inv : Invoker) (o : Address) :
    inv.toNumber (.object o) = inv.toPrimitive (.object o) .number >>= inv.toNumber :=
  toPrimitive_bind_congr (fun _ hw => (toNumber_of_not_object hw).symm) (.object o) .number

/-- The number of an object is that of what the object converts to, `valueOf` first. The
object is held meanwhile. -/
theorem toNumber_object_eq_iff : inv.toNumber (.object o) s = (r, t) ↔
    ∃ p u, inv.Converts o [.valueOfMethod, .toStringMethod]
        (s.withHeld (.object o :: s.held)) p u ∧
      r = p.map Value.primitiveNumber ∧ t = u.withHeld s.held := by
  rw [toNumber_apply]
  rcases hprimitive : inv.toPrimitive (.object o) .number s with ⟨p, t'⟩
  constructor
  · intro h
    cases h
    obtain ⟨u, hconverts, ht⟩ := toPrimitive_object_eq_iff.mp hprimitive
    exact ⟨p, u, hconverts, rfl, ht⟩
  · rintro ⟨p', u, hconverts, rfl, rfl⟩
    cases hprimitive.symm.trans (toPrimitive_object_eq_iff.mpr ⟨u, hconverts, rfl⟩)
    rfl

/-- A number, or none is known: nothing else is a result. -/
theorem toNumber_eq_done {w : Value} (h : inv.toNumber v s = (.done w, t)) :
    w = .unknown ∨ ∃ n, w = .number n := by
  obtain ⟨p, u, _, hp⟩ := Run.bind_eq_done h
  cases hp
  cases p with
  | object a => exact .inl rfl
  | unknown => exact .inl rfl
  | _ => exact .inr ⟨_, rfl⟩

/-! ## Texts -/

theorem toText_apply (inv : Invoker) (v : Value) (s : Machine) : inv.toText v s =
    ((inv.toPrimitive v .string s).1.map Value.primitiveText,
      (inv.toPrimitive v .string s).2) :=
  Run.map_apply _ _ s

theorem toText_of_not_object (hv : v.isObject = false) :
    inv.toText v = pure v.primitiveText := by
  rw [toText, toPrimitive_of_not_object hv]
  rfl

/-- The text of an object is the text of the primitive value to which it converts. -/
theorem toText_object (inv : Invoker) (o : Address) :
    inv.toText (.object o) = inv.toPrimitive (.object o) .string >>= inv.toText :=
  toPrimitive_bind_congr (fun _ hw => (toText_of_not_object hw).symm) (.object o) .string

theorem toText_eq_done {w : Value} (h : inv.toText v s = (.done w, t)) :
    w = .unknown ∨ ∃ x, w = .string x := by
  obtain ⟨p, u, _, hp⟩ := Run.bind_eq_done h
  cases hp
  cases p with
  | object a => exact .inl rfl
  | unknown => exact .inl rfl
  | _ => exact .inr ⟨_, rfl⟩

/-! ## Operations that need a number -/

/-- An operation that needs a number ends where the number is asked for: with what it makes
of the number, with a type error where none is known, and as the question ends where it has
no answer. -/
structure NeedsNumber {α : Type} (operation : String) (f : Number → α)
    (asked : Outcome Value × Machine) (result : Outcome α × Machine) : Prop where
  machine : result.2 = asked.2
  done : ∀ a, result.1 = .done a ↔ ∃ n, asked.1 = .done (.number n) ∧ a = f n
  raised : ∀ e, result.1 = .raised e ↔ asked.1 = .raised e ∨
    asked.1 = .done .unknown ∧ e = .undetermined operation
  aborted : ∀ e, result.1 = .aborted e ↔ asked.1 = .aborted e
  exhausted : result.1 = .exhausted ↔ asked.1 = .exhausted

theorem needsNumber {α : Type} (inv : Invoker) (operation : String) (f : Number → α)
    (v : Value) (s : Machine) : NeedsNumber operation f (inv.toNumber v s)
      ((do return f (← inv.numberFor operation v) : Run α) s) := by
  have hresult : (do return f (← inv.numberFor operation v) : Run α) s =
      ((inv.numberFor operation v s).1.map f, (inv.numberFor operation v s).2) :=
    Run.map_apply f _ s
  rw [hresult]
  rcases hnumber : inv.toNumber v s with ⟨r, t⟩
  rcases r.done_or_fails with ⟨w, rfl⟩ | hfails
  · rcases toNumber_eq_done hnumber with rfl | ⟨n, rfl⟩
    · have hfor : inv.numberFor operation v s = (.raised (.undetermined operation), t) :=
        Run.bind_of_done _ hnumber
      rw [hfor]
      constructor <;> simp [Outcome.map, eq_comm]
    · have hfor : inv.numberFor operation v s = (.done n, t) := Run.bind_of_done _ hnumber
      rw [hfor]
      constructor <;> simp [Outcome.map, eq_comm]
  · have hfor : inv.numberFor operation v s = (r.map fun _ => default, t) :=
      Run.bind_of_fails _ (fun _ => default) hnumber hfails
    rw [hfor, Outcome.map_map]
    cases r with
    | done w => exact absurd rfl (hfails w)
    | _ => constructor <;> simp [Outcome.map]

end Invoker

namespace Machine

/-- An object converts by two methods, `toString` before `valueOf` where a text is asked for
and after it otherwise. Each is read once, with the object as the receiver of a getter; what
is read decides, or is called once and decides, or passes on to the other, as the rules say;
after both there is a type error. What is no object converts to itself and nothing is run.
No result is an object, so that the number of a value is read off what the value converts
to, and is a number or unknown; and so is its text. An integer or a word of 32 bits is there
exactly when the number is. -/
theorem conversion_follows_hint (inv : Invoker) (s : Machine) :
    (∀ o hint r t, inv.toPrimitive (.object o) hint s = (r, t) ↔
      ∃ u, inv.Converts o hint.order (s.withHeld (.object o :: s.held)) r u ∧
        t = u.withHeld s.held) ∧
    (∀ hint : Hint, hint.order = (if hint = .string then ["toString", "valueOf"]
      else ["valueOf", "toString"]).map Key.ofString) ∧
    (∀ v hint, (∃ o, v = .object o) ∨ inv.toPrimitive v hint s = (.done v, s)) ∧
    (∀ v hint a, (inv.toPrimitive v hint s).1 ≠ .done (.object a)) ∧
    (∀ v, inv.toNumber v s = ((inv.toPrimitive v .number s).1.map Value.primitiveNumber,
        (inv.toPrimitive v .number s).2) ∧
      ((∃ n, (inv.toNumber v s).1 = .done (.number n)) ∨
        (inv.toNumber v s).1 = .done .unknown ∨ (inv.toNumber v s).1.Fails)) ∧
    (∀ v, inv.toText v s = ((inv.toPrimitive v .string s).1.map Value.primitiveText,
        (inv.toPrimitive v .string s).2) ∧
      ((∃ x, (inv.toText v s).1 = .done (.string x)) ∨
        (inv.toText v s).1 = .done .unknown ∨ (inv.toText v s).1.Fails)) ∧
    (∀ v, Invoker.NeedsNumber "ToInteger" Number.integral (inv.toNumber v s)
      (inv.toInteger v s)) ∧
    (∀ v, Invoker.NeedsNumber "ToUint32" Number.toWord (inv.toNumber v s) (inv.toWord v s)) ∧
    Exception.noPrimitive.kind = .typeError ∧
    ∀ operation, (Exception.undetermined operation).kind = .typeError := by
  refine ⟨fun o hint r t => Invoker.toPrimitive_object_eq_iff, fun hint => ?_,
    fun v hint => ?_, fun v hint => Invoker.toPrimitive_ne_object inv v hint s,
    fun v => ⟨Invoker.toNumber_apply inv v s, ?_⟩,
    fun v => ⟨Invoker.toText_apply inv v s, ?_⟩,
    fun v => Invoker.needsNumber inv _ _ v s, fun v => Invoker.needsNumber inv _ _ v s, rfl,
    fun _ => rfl⟩
  · cases hint <;> decide
  · cases v with
    | object o => exact .inl ⟨o, rfl⟩
    | _ => exact .inr rfl
  · rcases hnumber : inv.toNumber v s with ⟨r, t⟩
    rcases r.done_or_fails with ⟨w, rfl⟩ | hfails
    · rcases Invoker.toNumber_eq_done hnumber with rfl | ⟨n, rfl⟩
      · exact .inr (.inl rfl)
      · exact .inl ⟨n, rfl⟩
    · exact .inr (.inr hfails)
  · rcases htext : inv.toText v s with ⟨r, t⟩
    rcases r.done_or_fails with ⟨w, rfl⟩ | hfails
    · rcases Invoker.toText_eq_done htext with rfl | ⟨x, rfl⟩
      · exact .inr (.inl rfl)
      · exact .inl ⟨x, rfl⟩
    · exact .inr (.inr hfails)

end Machine
end ScriptModel
