import ScriptModel.Proofs.Machine.Termination

/-!
# Limits do not show until they refuse

A run looks at its limits in two places: where it opens a frame, and where it is about to
read a list of arguments. The trace tells of every refusal there, also of those whose
exception a body later turns into something else. A run that was never refused anything goes
the same way under limits that are no tighter, step for step, and ends in the same machine
but for the limits.

The dispatcher's budget grows with the limit on the depth. That a larger budget makes no
difference is shown apart, by `Run.Settles`; here both runs have the same.
-/

namespace ScriptModel

/-! ## Limits and refusals -/

/-- The second limits are no tighter than the first. -/
structure Limits.Within (l l' : Limits) : Prop where
  depth : ∀ L', l'.maxDepth = some L' → ∃ L, l.maxDepth = some L ∧ L ≤ L'
  arguments : l.maxArguments ≤ l'.maxArguments

namespace Limits

variable {l l' : Limits}

/-- Nothing is tighter than to admit no frame and no argument. -/
def tightest : Limits := ⟨some 0, 0⟩

theorem tightest_within (l : Limits) : tightest.Within l where
  depth L' _ := ⟨0, rfl, Nat.zero_le L'⟩
  arguments := Nat.zero_le _

theorem Within.admits (hl : l.Within l') {d : Nat} (ha : l.admits d = true) :
    l'.admits d = true := by
  cases hL' : l'.maxDepth with
  | none => simp [Limits.admits, hL']
  | some L' =>
    obtain ⟨L, hL, hle⟩ := hl.depth L' hL'
    simp only [Limits.admits, hL, hL', decide_eq_true_eq] at ha ⊢
    omega

end Limits

/-- A limit has refused something. -/
def Event.isRefusal : Event → Bool
  | frameRefused _ => true
  | argumentsRefused _ => true
  | _ => false

namespace Machine

/-- No limit has refused anything so far. -/
def Unrefused (s : Machine) : Prop := ∀ e ∈ s.trace, e.isRefusal = false

instance (s : Machine) : Decidable s.Unrefused :=
  inferInstanceAs (Decidable (∀ e ∈ s.trace, e.isRefusal = false))

/-- The machine under other limits. -/
def withLimits (s : Machine) (l : Limits) : Machine :=
  { s with stack := { s.stack with limits := l } }

@[simp] theorem withLimits_heap (s : Machine) (l : Limits) :
    (s.withLimits l).heap = s.heap := rfl

@[simp] theorem note_withLimits (s : Machine) (l : Limits) (e : Event) :
    (s.withLimits l).note e = (s.note e).withLimits l := rfl

@[simp] theorem withLimits_withLimits (s : Machine) (l l' : Limits) :
    (s.withLimits l).withLimits l' = s.withLimits l' := rfl

theorem untraced_withLimits (s : Machine) (l : Limits) :
    (s.withLimits l).untraced = s.untraced.withLimits l := rfl

/-- What was not refused later was not refused before. -/
theorem Logged.unrefused {s t : Machine} (h : s.Logged t) (ht : t.Unrefused) :
    s.Unrefused := by
  obtain ⟨_, es, htrace, _⟩ := h
  intro e he
  refine ht e ?_
  rw [htrace]
  exact List.mem_append_right es he

theorem refused_not_unrefused (s : Machine) : ¬ s.refused.Unrefused := by
  intro h
  have hevent := h (.frameRefused s.stack.depth) List.mem_cons_self
  cases hevent

end Machine

namespace Run

open Machine

variable {α : Type} {l' : Limits}

/-! ## Two runs that go the same way -/

/-- When nothing is refused to the first computation, the second does the same under the
limits `l'`, if those are no tighter. -/
def Transparent (l' : Limits) (α : Type) (x y : Run α) : Prop :=
  ∀ s, s.Logged (x s).2 ∧ (s.stack.limits.Within l' → (x s).2.Unrefused →
    y (s.withLimits l') = ((x s).1, (x s).2.withLimits l'))

theorem reject_withLimits (l' : Limits) (throws : Bool) (e : Exception) (s : Machine) :
    reject throws e (s.withLimits l') =
      ((reject throws e s).1, (reject throws e s).2.withLimits l') := by
  cases throws <;> rfl

/-- A list that is refused leaves an event, and one that is not passes any limit above. -/
theorem checkArguments_withLimits {s : Machine} (count : Nat)
    (hl : s.stack.limits.Within l') (hu : (checkArguments count s).2.Unrefused) :
    checkArguments count (s.withLimits l') =
      ((checkArguments count s).1, (checkArguments count s).2.withLimits l') := by
  by_cases hc : s.stack.limits.maxArguments < count
  · have hrefused : (checkArguments count s).2 = s.note (.argumentsRefused count) := by
      simp [checkArguments, CallStack.checkArguments, hc]
    rw [hrefused] at hu
    have hevent := hu (.argumentsRefused count) List.mem_cons_self
    cases hevent
  · have hc' : ¬ l'.maxArguments < count := fun h => hc (Nat.lt_of_le_of_lt hl.arguments h)
    simp [checkArguments, CallStack.checkArguments, withLimits, hc, hc']

/-- What touches the machine looks at the limits only to check a list of arguments. -/
theorem Primitive.withLimits {x : Run α} (hx : Primitive x) {s : Machine}
    (hl : s.stack.limits.Within l') (hu : (x s).2.Unrefused) :
    x (s.withLimits l') = ((x s).1, (x s).2.withLimits l') := by
  cases hx with
  | checkArguments count => exact checkArguments_withLimits count hl hu
  | define o k f throws overrides =>
    simp only [Run.define, note_withLimits]
    cases overrides <;>
    · simp only [Bool.false_eq_true, if_false, if_true, withLimits_heap]
      split
      · rfl
      · exact reject_withLimits l' throws _ _
  | delete o k throws =>
    simp only [Run.delete, withLimits_heap]
    split
    · rfl
    · exact reject_withLimits l' throws _ s
  | setPrototype o p =>
    simp only [Run.setPrototype, withLimits_heap]
    split <;> rfl
  | _ => rfl

theorem congruence_transparent (l' : Limits) : Congruence (Transparent l') where
  primitive hx s := ⟨congruence_logged.primitive hx s, fun hl hu => hx.withLimits hl hu⟩
  bind {α β x y f g} hx hf s := by
    refine ⟨congruence_logged.bind (y := y) (g := g) (fun s => (hx s).1)
      (fun a s => (hf a s).1) s,
      fun hl hu => ?_⟩
    obtain ⟨hlog, hsame⟩ := hx s
    rw [bind_apply] at hu ⊢
    rw [bind_apply]
    rcases hr : x s with ⟨_ | _ | _ | _, t⟩ <;> rw [hr] at hlog hsame hu
    · -- What the rest was not refused, the first part was not refused either.
      have ht := (hf _ t).1.unrefused hu
      rw [hsame hl ht]
      exact (hf _ t).2 (hlog.1 ▸ hl) hu
    all_goals rw [hsame hl hu]
  attempt {α x y} hx s := by
    refine ⟨congruence_logged.attempt (y := y) (fun s => (hx s).1) s, fun hl hu => ?_⟩
    obtain ⟨_, hsame⟩ := hx s
    unfold Run.attempt at hu ⊢
    rcases hr : x s with ⟨_ | _ | _ | _, t⟩ <;> rw [hr] at hsame hu <;> rw [hsame hl hu]
  contained {α x y} hx s := by
    refine ⟨congruence_logged.contained (y := y) (fun s => (hx s).1) s, fun hl hu => ?_⟩
    obtain ⟨_, hsame⟩ := hx s
    unfold Run.contained at hu ⊢
    rcases hr : x s with ⟨_ | _ | _ | _, t⟩ <;> rw [hr] at hsame hu <;> rw [hsame hl hu]
  holding {α x y} vs hx s := by
    refine ⟨congruence_logged.holding (y := y) vs (fun s => (hx s).1) s, fun hl hu => ?_⟩
    have hsame : y { s.withLimits l' with held := vs ++ s.held } = _ :=
      (hx { s with held := vs ++ s.held }).2 hl hu
    show ((y { s.withLimits l' with held := vs ++ s.held }).1,
      { (y { s.withLimits l' with held := vs ++ s.held }).2 with held := s.held }) = _
    rw [hsame]
    rfl
  swept {α x y} inHand hx s := by
    refine ⟨congruence_logged.swept (y := y) inHand (fun s => (hx s).1) s, fun hl hu => ?_⟩
    obtain ⟨_, hsame⟩ := hx s
    unfold Run.swept at hu ⊢
    rcases hr : x s with ⟨_ | _ | _ | _, t⟩ <;> rw [hr] at hsame hu <;>
      rw [hsame hl hu] <;> rfl

/-- A frame that was not refused is one that no looser limit refuses. -/
theorem framed_transparent {x y : Run α} (h : Transparent l' α x y) :
    Transparent l' α (framed x) (framed y) := by
  intro s
  refine ⟨framed_logged (fun s => (h s).1) s, fun hl hu => ?_⟩
  cases ha : s.admits with
  | false =>
    rw [framed_of_not_admits x ha] at hu
    exact absurd hu (refused_not_unrefused s)
  | true =>
    rw [framed_of_admits x ha] at hu ⊢
    have ha' : (s.withLimits l').admits = true := hl.admits ha
    have hinner : (x s.entered).2.Unrefused := fun e he => hu e (List.mem_cons_of_mem _ he)
    have hsame : y (s.withLimits l').entered = _ := (h s.entered).2 hl hinner
    rw [framed_of_admits y ha', hsame]
    rfl

theorem abort_transparent (f : InstallFailure) :
    Transparent l' Unit (abort f) (abort f) := fun s => ⟨.refl s, fun _ _ => rfl⟩

theorem dispatch_transparent (n : Nat) :
    Invoker.Corresponds (Transparent l') (dispatch n) (dispatch n) :=
  (congruence_transparent l').dispatch framed_transparent abort_transparent
    (fun _ s => ⟨.refl s, fun _ _ => rfl⟩) n

end Run

/-! ## Fresh machines -/

namespace Machine

/-- Under the tightest limits the built-ins are installed and nothing is refused. -/
theorem register_tightest_unrefused :
    ((dispatch 1).register .all (bare .tightest)).2.Unrefused := by decide +kernel

/-- Fresh machines are the same but for their limits. -/
theorem fresh_eq_withLimits (l : Limits) : fresh l = (fresh .tightest).withLimits l := by
  have hregister := (Run.congruence_transparent l).register (Run.dispatch_transparent 1)
    Run.abort_transparent .all (bare .tightest)
  have hsame := hregister.2 (Limits.tightest_within l) register_tightest_unrefused
  rw [show (bare .tightest).withLimits l = bare l from rfl] at hsame
  rw [fresh_eq, fresh_eq, hsame, untraced_withLimits]

end Machine

/-! ## Scripts -/

namespace Script

open Machine

variable {l' : Limits} {host : Nat} {s : Machine}

/-- A budget that goes with limits no tighter does not show. -/
theorem step_budget (hl : s.stack.limits.Within l')
    (hhost : l'.maxDepth = none → ∀ L, s.stack.limits.maxDepth = some L → L < host)
    (x : Step) : Run.swept (fun _ => []) (x.run (dispatch (l'.budget host)) .top) s =
      Run.swept (fun _ => []) (x.run (invoker host s) .top) s := by
  cases hL : s.stack.limits.maxDepth with
  | none =>
    -- Without a limit on the depth there is none above it, and both are up to the host.
    have hL' : l'.maxDepth = none := by
      refine Option.eq_none_iff_forall_ne_some.mpr fun L' hL' => ?_
      obtain ⟨L, hL'', _⟩ := hl.depth L' hL'
      rw [hL] at hL''
      cases hL''
    simp only [invoker, Limits.budget, hL, hL']
  | some L =>
    have hbudget : L + 1 ≤ l'.budget host := by
      cases hL' : l'.maxDepth with
      | none =>
        simp only [Limits.budget, hL']
        exact hhost hL' L hL
      | some L' =>
        obtain ⟨_, hL'', hle⟩ := hl.depth L' hL'
        rw [hL] at hL''
        cases hL''
        simp only [Limits.budget, hL']
        omega
    have hinvoker : invoker host s = dispatch (L + 1) := by
      simp only [invoker, Limits.budget, hL]
    have hsettles := Run.dispatch_settles (L + 1) _ hbudget s.stack hL (by omega)
    have hstep :=
      (Run.congruence_settles s.stack).step hsettles .top (Run.abort_settles _) x
    rw [hinvoker]
    exact ((Run.congruence_settles s.stack).swept (fun _ => []) hstep s rfl).2.2

theorem step_withLimits (hl : s.stack.limits.Within l')
    (hhost : l'.maxDepth = none → ∀ L, s.stack.limits.maxDepth = some L → L < host)
    (x : Step) (hu : (step host s x).2.Unrefused) :
    step host (s.withLimits l') x = ((step host s x).1, (step host s x).2.withLimits l') := by
  have hstep := (Run.congruence_transparent l').step
    (Run.dispatch_transparent (l'.budget host)) .top Run.abort_transparent x
  have hsame := ((Run.congruence_transparent l').swept (fun _ => []) hstep s).2 hl
  rw [step_budget hl hhost x] at hsame
  have hrun : Run.swept (fun _ => []) (x.run (invoker host (s.withLimits l')) .top)
      (s.withLimits l') = _ := hsame hu
  unfold step
  rw [hrun]
  rfl

theorem run_withLimits (hl : s.stack.limits.Within l')
    (hhost : l'.maxDepth = none → ∀ L, s.stack.limits.maxDepth = some L → L < host)
    (steps : List Step) (hu : (run host s steps).2.Unrefused) :
    run host (s.withLimits l') steps =
      ((run host s steps).1, (run host s steps).2.withLimits l') := by
  induction steps generalizing s with
  | nil => rfl
  | cons x xs ih =>
    have hstack := (step_logged host s x).1
    have hx : (step host s x).2.Unrefused := (run_logged host _ xs).unrefused hu
    have hfirst := step_withLimits hl hhost x hx
    have hrest := ih (s := (step host s x).2) (hstack ▸ hl) (hstack ▸ hhost) hu
    simp only [run, hfirst, hrest]

end Script

namespace Machine

/-- The limits of a run are transparent until they refuse something. When a script, with all
that its steps and bodies call, is refused no frame and no list of arguments, it does the
same under all limits that are no tighter: each step ends the same way and logs the same,
and at the end heap, names, diagnostics, depth and trace are the same. Where the limit on
the depth is dropped, the host has to offer as many frames as a run at the limit may
need. -/
theorem limits_transparent {l l' : Limits} (hl : l.Within l') {host : Nat}
    (hhost : l'.maxDepth = none → ∀ L, l.maxDepth = some L → L < host) (steps : List Step)
    (hu : (Script.run host (fresh l) steps).2.Unrefused) :
    Script.run host (fresh l') steps =
      ((Script.run host (fresh l) steps).1,
        (Script.run host (fresh l) steps).2.withLimits l') := by
  have hlimits : (fresh l).stack.limits = l := by rw [stack_fresh]; rfl
  have hfresh : fresh l' = (fresh l).withLimits l' := by
    rw [fresh_eq_withLimits l, withLimits_withLimits, fresh_eq_withLimits l']
  rw [hfresh]
  refine Script.run_withLimits ?_ ?_ steps hu
  · rw [hlimits]
    exact hl
  · rw [hlimits]
    exact hhost

/-- Calls Function.prototype with the two elements of an array. -/
def spreadingScript : List Step :=
  [.keep "list" (.create (.array [.constant .null, .constant .undefined])),
    .invoke (.builtin .apply (.named "FunctionPrototype") [.constant .null, .named "list"])]

/-- One frame and two arguments are just enough for it, so that it runs the same without a
limit on the depth, on a host with two frames. -/
theorem spreadingScript_without_depth_limit :
    Limits.Within ⟨some 1, 2⟩ ⟨none, 3⟩ ∧
      (Script.run 2 (fresh ⟨some 1, 2⟩) spreadingScript).2.Unrefused ∧
      Script.run 2 (fresh ⟨none, 3⟩) spreadingScript =
        ((Script.run 2 (fresh ⟨some 1, 2⟩) spreadingScript).1,
          (Script.run 2 (fresh ⟨some 1, 2⟩) spreadingScript).2.withLimits ⟨none, 3⟩) := by
  have hl : Limits.Within ⟨some 1, 2⟩ ⟨none, 3⟩ := ⟨nofun, by decide⟩
  have hhost : (none : Option Nat) = none → ∀ L, some 1 = some L → L < 2 := by
    rintro - L ⟨⟩
    decide
  have hu : (Script.run 2 (fresh ⟨some 1, 2⟩) spreadingScript).2.Unrefused := by
    decide +kernel
  exact ⟨hl, hu, limits_transparent hl hhost spreadingScript hu⟩

end Machine
end ScriptModel
