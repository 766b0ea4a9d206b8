import ScriptModel.Proofs.Machine.Reachable

/-!
# Termination under a limit

With a limit on the depth every operation ends. The measure is the depth that remains: a
frame is opened only where some is left, whatever runs inside has one less, and what runs
outside of frames recurses on the data at hand. So a budget of one frame more than what
remains is never used up, and no larger budget makes a difference.

The walks along prototype chains need no budget. The heap of every reachable machine is
acyclic, so the walks end by themselves.
-/

namespace ScriptModel

variable {α : Type}

/-- The outcome is a value or an exception. -/
def Outcome.isFinal : Outcome α → Bool
  | done _ => true
  | raised _ => true
  | _ => false

theorem Outcome.isFinal_of_ne {r : Outcome α} (ha : ∀ f, r ≠ .aborted f)
    (he : r ≠ .exhausted) : r.isFinal = true := by
  cases r with
  | done a => rfl
  | raised e => rfl
  | aborted f => exact absurd rfl (ha f)
  | exhausted => exact absurd rfl he

theorem Outcome.ne_aborted_of_isFinal {r : Outcome α} (h : r.isFinal = true)
    (f : InstallFailure) : r ≠ .aborted f := by
  rintro rfl
  cases h

theorem Outcome.ne_exhausted_of_isFinal {r : Outcome α} (h : r.isFinal = true) :
    r ≠ .exhausted := by
  rintro rfl
  cases h

namespace Run

open Machine

/-! ## Runs that end at a depth -/

/-- On machines with the given stack the first computation ends within its budget and leaves
the stack as it was, and the second does the same. -/
def Settles (st : CallStack) (α : Type) (x y : Run α) : Prop :=
  ∀ s, s.stack = st → (x s).1 ≠ .exhausted ∧ (x s).2.stack = st ∧ y s = x s

theorem reject_isFinal (throws : Bool) (e : Exception) (s : Machine) :
    (reject throws e s).1.isFinal = true := by
  cases throws <;> rfl

/-- What touches the machine yields a value or raises. -/
theorem Primitive.isFinal {x : Run α} (hx : Primitive x) (s : Machine) :
    (x s).1.isFinal = true := by
  cases hx with
  | define o k f throws overrides =>
    unfold Run.define
    dsimp only
    split
    · rfl
    · exact reject_isFinal throws _ _
  | delete o k throws =>
    unfold Run.delete
    split
    · rfl
    · exact reject_isFinal throws _ _
  | setPrototype o p =>
    unfold Run.setPrototype
    split <;> rfl
  | checkArguments count =>
    unfold Run.checkArguments
    split <;> rfl
  | _ => rfl

theorem Primitive.stack {x : Run α} (hx : Primitive x) (s : Machine) :
    (x s).2.stack = s.stack := by
  rcases hx.act s with he | ha
  · rw [he]
  · exact ha.stack

theorem congruence_settles (st : CallStack) : Congruence (Settles st) where
  primitive hx s hs := ⟨Outcome.ne_exhausted_of_isFinal (hx.isFinal s),
    (hx.stack s).trans hs, rfl⟩
  bind {α β x y f g} hx hf s hs := by
    obtain ⟨hne, hst, heq⟩ := hx s hs
    rw [bind_apply, bind_apply, heq]
    rcases hr : x s with ⟨_ | _ | _ | _, t⟩ <;> rw [hr] at hne hst
    · exact hf _ t hst
    · exact ⟨nofun, hst, rfl⟩
    · exact ⟨nofun, hst, rfl⟩
    · exact absurd rfl hne
  attempt {α x y} hx s hs := by
    obtain ⟨hne, hst, heq⟩ := hx s hs
    unfold Run.attempt
    rw [heq]
    rcases hr : x s with ⟨_ | _ | _ | _, t⟩ <;> rw [hr] at hne hst
    · exact ⟨nofun, hst, rfl⟩
    · exact ⟨nofun, hst, rfl⟩
    · exact ⟨nofun, hst, rfl⟩
    · exact absurd rfl hne
  contained {α x y} hx s hs := by
    obtain ⟨hne, hst, heq⟩ := hx s hs
    unfold Run.contained
    rw [heq]
    rcases hr : x s with ⟨_ | _ | _ | _, t⟩ <;> rw [hr] at hne hst
    · exact ⟨nofun, hst, rfl⟩
    · exact ⟨nofun, hst, rfl⟩
    · exact ⟨nofun, hst, rfl⟩
    · exact absurd rfl hne
  holding {α x y} vs hx s hs := by
    obtain ⟨hne, hst, heq⟩ := hx { s with held := vs ++ s.held } hs
    unfold Run.holding
    rw [heq]
    exact ⟨hne, hst, rfl⟩
  swept {α x y} inHand hx s hs := by
    obtain ⟨hne, hst, heq⟩ := hx s hs
    unfold Run.swept
    rw [heq]
    rcases hr : x s with ⟨_ | _ | _ | _, t⟩ <;> rw [hr] at hne hst
    · exact ⟨nofun, hst, rfl⟩
    · exact ⟨nofun, hst, rfl⟩
    · exact ⟨nofun, hst, rfl⟩
    · exact absurd rfl hne

theorem abort_settles (st : CallStack) (f : InstallFailure) :
    Settles st Unit (abort f) (abort f) :=
  fun _ hs => ⟨nofun, hs, rfl⟩

/-- Where the limit admits a frame, what settles one frame deeper settles in a frame. -/
theorem framed_settles {st : CallStack} (ha : st.limits.admits st.depth = true)
    {x y : Run α} (h : Settles { st with depth := st.depth + 1 } α x y) :
    Settles st α (framed x) (framed y) := by
  rintro s rfl
  obtain ⟨hne, hst, heq⟩ := h s.entered rfl
  rw [framed_of_admits x ha, framed_of_admits y ha, heq]
  refine ⟨hne, ?_, rfl⟩
  show (x s.entered).2.stack.leave = s.stack
  rw [hst]
  rfl

/-- Where the limit admits none, nothing runs. -/
theorem framed_settles_of_not_admits {st : CallStack}
    (ha : st.limits.admits st.depth = false)
    (x y : Run α) : Settles st α (framed x) (framed y) := by
  rintro s rfl
  rw [framed_of_not_admits x ha, framed_of_not_admits y ha]
  exact ⟨nofun, rfl, rfl⟩

/-- A dispatcher that can nest more frames than remain until the limit always answers, and
one that can nest even more answers the same. -/
theorem dispatch_settles {L : Nat} (n m : Nat) (hnm : n ≤ m) (st : CallStack)
    (hL : st.limits.maxDepth = some L) (hn : L - st.depth < n) :
    Invoker.Corresponds (Settles st) (dispatch n) (dispatch m) := by
  induction n generalizing m st with
  | zero => exact absurd hn (Nat.not_lt_zero _)
  | succ n ih =>
    -- Inside a frame there is one less of the budget and one less of the depth that
    -- remains.
    obtain ⟨m, rfl⟩ :=
      Nat.exists_eq_add_one_of_ne_zero (Nat.ne_of_gt (Nat.zero_lt_of_lt hnm))
    have hadmits : st.limits.admits st.depth = decide (st.depth < L) := by
      simp only [Limits.admits, hL]
    by_cases hd : st.depth < L
    · have hinner : Invoker.Corresponds (Settles { st with depth := st.depth + 1 })
          (dispatch n) (dispatch m) :=
        ih m (Nat.le_of_succ_le_succ hnm) _ hL (by simp only; omega)
      have hroutine := (congruence_settles _).routine hinner (abort_settles _)
      exact (congruence_settles _).serve hinner hroutine (congruence_settles st)
        (framed_settles (hadmits.trans (decide_eq_true hd)))
    · -- No frame is admitted here, so it does not matter what would run inside.
      have hfalse := hadmits.trans (decide_eq_false hd)
      have hany : Congruence fun _ _ _ => True := by constructor <;> intros <;> trivial
      exact hany.serve (fun _ => trivial) (fun _ _ _ => trivial) (congruence_settles st)
        fun _ => framed_settles_of_not_admits hfalse _ _

/-! ## Failed installations stay inside bodies -/

theorem congruence_contained :
    Congruence fun _ x _ => ∀ (s : Machine) (f : InstallFailure), (x s).1 ≠ .aborted f where
  primitive hx s := Outcome.ne_aborted_of_isFinal (hx.isFinal s)
  bind {α β x y f g} hx hf s e := by
    have h := hx s
    rw [bind_apply]
    rcases hr : x s with ⟨_ | _ | e' | _, t⟩ <;> rw [hr] at h
    · exact hf _ t e
    · exact nofun
    · exact absurd rfl (h e')
    · exact nofun
  attempt {α x y} hx s e := by
    have h := hx s
    unfold Run.attempt
    rcases hr : x s with ⟨_ | _ | e' | _, t⟩ <;> rw [hr] at h
    · exact nofun
    · exact nofun
    · exact absurd rfl (h e')
    · exact nofun
  contained {α x y} hx s e := contained_ne_aborted x s e
  holding {α x y} vs hx s e := hx _ e
  swept {α x y} inHand hx s e := by
    rw [outcome_swept]
    exact hx s e

theorem framed_ne_aborted {x : Run α} (hx : ∀ s f, (x s).1 ≠ .aborted f) (s : Machine)
    (f : InstallFailure) : (framed x s).1 ≠ .aborted f := by
  cases ha : s.admits with
  | false =>
    rw [framed_of_not_admits x ha]
    exact nofun
  | true =>
    rw [framed_of_admits x ha]
    exact hx _ f

theorem dispatch_contained (n : Nat) :
    Invoker.Corresponds
      (fun _ x _ => ∀ (s : Machine) (f : InstallFailure), (x s).1 ≠ .aborted f)
      (dispatch n) (dispatch n) := by
  induction n with
  | zero => exact fun _ _ _ => nofun
  | succ n ih =>
    exact congruence_contained.serve ih (fun _ _ _ _ f => contained_ne_aborted _ _ f)
      congruence_contained framed_ne_aborted

/-! ## Operations and steps -/

variable {L : Nat} {s : Machine} (hL : s.stack.limits.maxDepth = some L)
include hL

theorem dispatch_settles_self {n : Nat} (hn : L - s.stack.depth < n) :
    Invoker.Corresponds (Settles s.stack) (dispatch n) (dispatch n) :=
  dispatch_settles n n (Nat.le_refl n) s.stack hL hn

/-- An operation ends with a value or an exception, and the budget does not show. -/
theorem operation_final (op : Operation) {n m : Nat} (hn : L - s.stack.depth < n)
    (hnm : n ≤ m) :
    (op.run (dispatch n) s).1.isFinal = true ∧
      op.run (dispatch m) s = op.run (dispatch n) s := by
  have hsettles := dispatch_settles n m hnm s.stack hL hn
  obtain ⟨hne, _, heq⟩ := (congruence_settles s.stack).operation hsettles op s rfl
  have hna := congruence_contained.operation (dispatch_contained n) op s
  exact ⟨Outcome.isFinal_of_ne hna hne, heq⟩

/-- A body ends, however its steps go on after an exception. -/
theorem routine_final (self : Value) (args : List Value) (r : Routine Step) {n : Nat}
    (hn : L - s.stack.depth < n) : (r.run (dispatch n) self args s).1.isFinal = true := by
  have hroutine := (congruence_settles s.stack).routine (dispatch_settles_self hL hn)
    (abort_settles _) self args r
  exact Outcome.isFinal_of_ne (fun f => contained_ne_aborted _ _ f) (hroutine s rfl).1

/-- A step of a script ends within the budget that scripts are given. -/
theorem step_ne_exhausted (host : Nat) (x : Step) :
    (Script.step host s x).1.outcome ≠ .exhausted := by
  have hn : L - s.stack.depth < s.stack.limits.budget host := by
    simp only [Limits.budget, hL]
    omega
  have hstep := (congruence_settles s.stack).step (dispatch_settles_self hL hn) .top
    (abort_settles _) x
  have hswept := (congruence_settles s.stack).swept (fun _ => []) hstep s rfl
  show (swept (fun _ => []) (x.run (Script.invoker host s) .top) s).1 ≠ .exhausted
  exact hswept.1

end Run

namespace Script

theorem run_ne_exhausted {L : Nat} (host : Nat) (steps : List Step) {s : Machine}
    (hL : s.stack.limits.maxDepth = some L) :
    ∀ result ∈ (run host s steps).1, result.outcome ≠ .exhausted := by
  induction steps generalizing s with
  | nil => simp [run]
  | cons x xs ih =>
    have hfirst := Run.step_ne_exhausted hL host x
    have hstack := (step_logged host s x).1
    obtain ⟨r, t, hstep⟩ : ∃ r t, step host s x = (r, t) := ⟨_, _, rfl⟩
    rw [hstep] at hfirst hstack
    intro result hmem
    simp only [run, hstep, List.mem_cons] at hmem
    rcases hmem with rfl | hmem
    · exact hfirst
    · exact ih (hstack ▸ hL) result hmem

end Script

namespace Machine

/-- With a limit on the depth everything ends, on every machine that can be reached. An
operation comes to a value or an exception, the same for every budget beyond the depth that
remains, and the steps of a script never use up theirs. An operation gets back into a body
only through the dispatcher at its own depth, which opens a frame if the limit admits one;
less depth remains in it. Meanwhile every prototype chain ends. -/
theorem terminates {l : Limits} {L : Nat} (hL : l.maxDepth = some L) {s : Machine}
    (hs : Reachable l s) :
    (∀ op : Operation, ∃ r t, r.isFinal = true ∧ t.stack = s.stack ∧
      ∀ n, L - s.stack.depth < n → op.run (dispatch n) s = (r, t)) ∧
    (∀ (n : Nat) (inv : Invoker), L - s.stack.depth < n →
      (∀ r u, u.stack = s.stack → inv r u = dispatch n r u) →
      ∀ op : Operation, op.run inv s = op.run (dispatch n) s) ∧
    (∀ (n : Nat) (r : Request) (c : Callable Step) (u : Machine), u.stack = s.stack →
      (u.heap.get r.function).callable = some c →
      if s.stack.depth < L then
        dispatch (n + 1) r u =
            (((dispatch n).body c r u.entered).1, ((dispatch n).body c r u.entered).2.left) ∧
          L - u.entered.stack.depth < L - u.stack.depth
      else dispatch (n + 1) r u = (.raised .depthExceeded, u.refused)) ∧
    (∀ (n : Nat) (self : Value) (args : List Value) (body : Routine Step),
      L - s.stack.depth < n →
      (body.run (dispatch n) self args s).1.isFinal = true) ∧
    (∀ (host : Nat) (steps : List Step),
      ∀ result ∈ (Script.run host s steps).1, result.outcome ≠ .exhausted) ∧
    ∀ u, Path s u → ∀ a, u.heap.climb (u.heap.size + 1) (some a) = none := by
  have hlimit : s.stack.limits.maxDepth = some L := hs.sound.limits_eq ▸ hL
  refine ⟨fun op => ?_, fun n inv hn hinv op => ?_, fun n r c u hu hc => ?_,
    fun n self args body => Run.routine_final hlimit self args body,
    fun host steps => Script.run_ne_exhausted host steps hlimit,
    fun u hu a => (hs.path hu).climb_size a⟩
  · obtain ⟨r, t, hrun⟩ : ∃ r t, op.run (dispatch (L - s.stack.depth + 1)) s = (r, t) :=
      ⟨_, _, rfl⟩
    have hfinal := (Run.operation_final hlimit op (Nat.lt_succ_self _) (Nat.le_refl _)).1
    have hstack := (Run.operation_logged (L - s.stack.depth + 1) op s).1
    rw [hrun] at hfinal hstack
    refine ⟨r, t, hfinal, hstack, fun n hn => ?_⟩
    rw [(Run.operation_final hlimit op (Nat.lt_succ_self _) hn).2, hrun]
  · have hsettles : Invoker.Corresponds (Run.Settles s.stack) (dispatch n) inv := by
      intro r u hu
      obtain ⟨hne, hst, _⟩ := Run.dispatch_settles_self hlimit hn r u hu
      exact ⟨hne, hst, hinv r u hu⟩
    exact ((Run.congruence_settles s.stack).operation hsettles op s rfl).2.2
  · have hserve : dispatch (n + 1) r u = Run.framed ((dispatch n).body c r) u :=
      (dispatch n).serve_of_callable r hc
    have hadmits : u.admits = decide (s.stack.depth < L) := by
      simp only [admits, Limits.admits, hu, hlimit]
    rw [hserve]
    split
    · rename_i hd
      refine ⟨Run.framed_of_admits _ (hadmits.trans (decide_eq_true hd)), ?_⟩
      show L - (u.stack.depth + 1) < L - u.stack.depth
      rw [hu]
      omega
    · rename_i hd
      exact Run.framed_of_not_admits _ (hadmits.trans (decide_eq_false hd))

/-- A call of Function.prototype on a fresh machine ends. -/
theorem call_of_functionPrototype_ends :
    ∃ r t, r.isFinal = true ∧ t.stack = (fresh .standard).stack ∧
      ∀ n, 512 - (fresh .standard).stack.depth < n →
        (Operation.call .functionPrototype .undefined []).run (dispatch n) (fresh .standard) =
          (r, t) :=
  (terminates (l := .standard) rfl .fresh).1 (.call .functionPrototype .undefined [])

end Machine
end ScriptModel
