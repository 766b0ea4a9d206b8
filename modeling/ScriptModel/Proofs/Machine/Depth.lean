import ScriptModel.Proofs.Machine.Move
import ScriptModel.Proofs.Run.Operation

/-!
# The depth of calls

The trace tells of every frame that is opened, closed or refused, and so what the depth is
at every moment of a run. `FrameLog` says that such a record is in order: frames are closed
in the order of a stack, the depth told is the depth at the beginning and the frames that
are open, and the limit decides alone about what is opened and what is refused. Every run
leaves a record that is in order, however it ends.
-/

namespace ScriptModel

namespace Event

def isEntered : Event → Bool
  | entered _ => true
  | _ => false

def isLeft : Event → Bool
  | left _ => true
  | _ => false

/-- The depth that an event about a frame tells. -/
def depth? : Event → Option Nat
  | entered k => some k
  | left k => some k
  | frameRefused k => some k
  | _ => none

/-- How many frames were opened. -/
def opened (es : List Event) : Nat := es.countP isEntered

/-- How many frames were closed. -/
def closed (es : List Event) : Nat := es.countP isLeft

@[simp] theorem opened_nil : opened [] = 0 := rfl

@[simp] theorem closed_nil : closed [] = 0 := rfl

@[simp] theorem opened_append (es es' : List Event) :
    opened (es ++ es') = opened es + opened es' := List.countP_append

@[simp] theorem closed_append (es es' : List Event) :
    closed (es ++ es') = closed es + closed es' := List.countP_append

@[simp] theorem opened_entered (k : Nat) (es : List Event) :
    opened (entered k :: es) = opened es + 1 := List.countP_cons_of_pos rfl

@[simp] theorem closed_entered (k : Nat) (es : List Event) :
    closed (entered k :: es) = closed es := by simp [closed, isLeft]

@[simp] theorem opened_left (k : Nat) (es : List Event) :
    opened (left k :: es) = opened es := by simp [opened, isEntered]

@[simp] theorem closed_left (k : Nat) (es : List Event) :
    closed (left k :: es) = closed es + 1 := List.countP_cons_of_pos rfl

@[simp] theorem opened_frameRefused (k : Nat) (es : List Event) :
    opened (frameRefused k :: es) = opened es := by simp [opened, isEntered]

@[simp] theorem closed_frameRefused (k : Nat) (es : List Event) :
    closed (frameRefused k :: es) = closed es := by simp [closed, isLeft]

theorem opened_of_not_isFrame {e : Event} (he : e.isFrame = false) (es : List Event) :
    opened (e :: es) = opened es := by
  cases e <;> simp_all [opened, isEntered, isFrame]

theorem closed_of_not_isFrame {e : Event} (he : e.isFrame = false) (es : List Event) :
    closed (e :: es) = closed es := by
  cases e <;> simp_all [closed, isLeft, isFrame]

theorem depth?_of_not_isFrame {e : Event} (he : e.isFrame = false) : e.depth? = none := by
  cases e <;> simp_all [depth?, isFrame]

end Event

open Event

/-- The moments in a record made of two are those of the older part, and those of the newer
part with all of the older one behind them. -/
theorem suffix_append_cases {α : Type} {xs ys now : List α} (h : now <:+ ys ++ xs) :
    now <:+ xs ∨ ∃ later, later <:+ ys ∧ now = later ++ xs := by
  rcases List.suffix_or_suffix_of_suffix h (List.suffix_append ys xs) with h' | h'
  · exact .inl h'
  · obtain ⟨later, rfl⟩ := h'
    obtain ⟨before, hb⟩ := h
    rw [← List.append_assoc] at hb
    exact .inr ⟨later, ⟨before, List.append_cancel_right hb⟩, rfl⟩

/-- An event is in order after those before it, in a record that begins at depth `d`. -/
structure Event.InOrder (l : Limits) (d : Nat) (e : Event) (now : List Event) : Prop where
  /-- No more frames have been closed than opened. -/
  closed_le : closed (e :: now) ≤ opened (e :: now)
  /-- The depth told is the depth at the beginning and the frames that are open. -/
  depth_eq : ∀ k, e.depth? = some k → k + closed (e :: now) = d + opened (e :: now)
  /-- A frame that was opened is one that the limit admits. -/
  admitted : ∀ k, e = entered k → ∃ j, k = j + 1 ∧ l.admits j = true
  /-- A frame that was refused is one that the limit does not admit. -/
  refused : ∀ k, e = frameRefused k → l.admits k = false

/-- A record of events, newest first, that begins and ends at depth `d`. -/
structure FrameLog (l : Limits) (d : Nat) (es : List Event) : Prop where
  inOrder : ∀ e now, e :: now <:+ es → e.InOrder l d now
  /-- At the end all frames are closed. -/
  settled : closed es = opened es

namespace Event.InOrder

variable {l : Limits} {d : Nat} {e : Event} {now : List Event}

theorem aside (he : e.isFrame = false) (hnow : closed now ≤ opened now) :
    e.InOrder l d now where
  closed_le := by
    rw [opened_of_not_isFrame he, closed_of_not_isFrame he]
    exact hnow
  depth_eq k hk := by
    rw [depth?_of_not_isFrame he] at hk
    cases hk
  admitted k hk := by
    subst hk
    cases he
  refused k hk := by
    subst hk
    cases he

/-- What is in order stays so with an older record before it. -/
theorem append {es : List Event} (h : e.InOrder l d now) (hes : closed es = opened es) :
    e.InOrder l d (now ++ es) where
  closed_le := by
    have hle := h.closed_le
    rw [← List.cons_append, opened_append, closed_append]
    omega
  depth_eq k hk := by
    have hd := h.depth_eq k hk
    rw [← List.cons_append, opened_append, closed_append]
    omega
  admitted := h.admitted
  refused := h.refused

/-- What is in order inside a frame stays so after the event that opened it. -/
theorem inFrame (h : e.InOrder l (d + 1) now) :
    e.InOrder l d (now ++ [entered (d + 1)]) where
  closed_le := by
    have hle := h.closed_le
    rw [← List.cons_append, opened_append, closed_append]
    simp only [opened_entered, closed_entered, opened_nil, closed_nil]
    omega
  depth_eq k hk := by
    have hd := h.depth_eq k hk
    rw [← List.cons_append, opened_append, closed_append]
    simp only [opened_entered, closed_entered, opened_nil, closed_nil]
    omega
  admitted := h.admitted
  refused := h.refused

/-- The event that opens the first frame. -/
theorem opening (ha : l.admits d = true) : (entered (d + 1)).InOrder l d [] where
  closed_le := Nat.zero_le _
  depth_eq k hk := by
    cases hk
    rfl
  admitted k hk := by
    cases hk
    exact ⟨d, rfl, ha⟩
  refused k hk := by cases hk

/-- The event that closes the frame which the first event opened. -/
theorem closing {es : List Event} (hes : closed es = opened es) :
    (left d).InOrder l d (es ++ [entered (d + 1)]) where
  closed_le := by
    simp only [opened_left, closed_left, opened_append, closed_append, opened_entered,
      closed_entered, opened_nil, closed_nil]
    omega
  depth_eq k hk := by
    cases hk
    simp only [opened_left, closed_left, opened_append, closed_append, opened_entered,
      closed_entered, opened_nil, closed_nil]
    omega
  admitted k hk := by cases hk
  refused k hk := by cases hk

end Event.InOrder

namespace FrameLog

variable {l : Limits} {d : Nat} {es es' : List Event}

theorem nil (l : Limits) (d : Nat) : FrameLog l d [] where
  inOrder e now h := absurd (List.suffix_nil.mp h) (List.cons_ne_nil e now)
  settled := rfl

/-- A record of a single event that opens and closes nothing. -/
theorem single {e : Event} (h : e.InOrder l d []) (hs : closed [e] = opened [e]) :
    FrameLog l d [e] where
  inOrder e' now hn := by
    rcases List.suffix_cons_iff.mp hn with hn | hn
    · cases hn
      exact h
    · exact absurd (List.suffix_nil.mp hn) (List.cons_ne_nil e' now)
  settled := hs

theorem aside {e : Event} (he : e.isFrame = false) (l : Limits) (d : Nat) :
    FrameLog l d [e] :=
  single (.aside he (Nat.le_refl 0)) (by
    rw [opened_of_not_isFrame he, closed_of_not_isFrame he]
    rfl)

theorem refusal (h : l.admits d = false) : FrameLog l d [.frameRefused d] := by
  refine single ⟨Nat.le_refl 0, ?_, ?_, ?_⟩ rfl
  · intro k hk
    cases hk
    rfl
  · intro k hk
    cases hk
  · intro k hk
    cases hk
    exact h

/-- One record after another: the second begins where the first has ended. -/
theorem append (h : FrameLog l d es) (h' : FrameLog l d es') :
    FrameLog l d (es' ++ es) where
  inOrder e now hn := by
    rcases suffix_append_cases hn with hn | ⟨later, hl, hnow⟩
    · exact h.inOrder e now hn
    · cases later with
      | nil => exact h.inOrder e now (hnow ▸ List.suffix_refl _)
      | cons e' later =>
        cases hnow
        exact (h'.inOrder e later hl).append h.settled
  settled := by rw [opened_append, closed_append, h.settled, h'.settled]

/-- A record inside a frame, with the events that open and close the frame. -/
theorem framed (ha : l.admits d = true) (h : FrameLog l (d + 1) es) :
    FrameLog l d (.left d :: (es ++ [.entered (d + 1)])) where
  inOrder e now hn := by
    rcases List.suffix_cons_iff.mp hn with hn | hn
    · cases hn
      exact .closing h.settled
    rcases suffix_append_cases hn with hn | ⟨later, hl, hnow⟩
    · have hlast := List.suffix_cons_iff.mp hn
      simp only [List.suffix_nil, List.cons_ne_nil, or_false] at hlast
      cases hlast
      exact .opening ha
    · cases later with
      | nil =>
        cases hnow
        exact .opening ha
      | cons e' later =>
        cases hnow
        exact (h.inOrder e later hl).inFrame
  settled := by
    have hs := h.settled
    simp only [opened_left, closed_left, opened_append, closed_append, opened_entered,
      closed_entered, opened_nil, closed_nil]
    omega

/-- At every moment the frames that are open keep the depth within the limit. -/
theorem depth_le {L : Nat} (h : FrameLog l d es) (hL : l.maxDepth = some L) (hd : d ≤ L)
    {now : List Event} (hn : now <:+ es) : d + opened now ≤ L + closed now := by
  induction now with
  | nil => exact hd
  | cons e now ih =>
    -- Only an event that opens a frame can pass the limit, and that one was admitted.
    have hle := ih ((List.suffix_cons e now).trans hn)
    have ho := h.inOrder e now hn
    cases e with
    | entered k =>
      obtain ⟨j, rfl, hj⟩ := ho.admitted k rfl
      have hk := ho.depth_eq (j + 1) rfl
      have hjL : j < L := by simpa [Limits.admits, hL] using hj
      omega
    | left k =>
      simp only [opened_left, closed_left]
      omega
    | frameRefused k =>
      simp only [opened_frameRefused, closed_frameRefused]
      exact hle
    | argumentsRefused c => exact hle
    | logged v => exact hle
    | overrode o => exact hle

end FrameLog

/-! ## Every run leaves a record that is in order -/

namespace Machine

/-- The stack is as it was, and what was recorded meanwhile is in order. -/
def Logged (s t : Machine) : Prop :=
  t.stack = s.stack ∧
    ∃ es, t.trace = es ++ s.trace ∧ FrameLog s.stack.limits s.stack.depth es

theorem Logged.refl (s : Machine) : s.Logged s := ⟨rfl, [], rfl, .nil _ _⟩

theorem Logged.trans {s t u : Machine} (h : s.Logged t) (h' : t.Logged u) : s.Logged u := by
  obtain ⟨hst, es, htr, hlog⟩ := h
  obtain ⟨hst', es', htr', hlog'⟩ := h'
  refine ⟨hst'.trans hst, es' ++ es, ?_, ?_⟩
  · rw [htr', htr, List.append_assoc]
  · rw [hst] at hlog'
    exact hlog.append hlog'

theorem Act.logged {s t : Machine} (h : Act s t) : s.Logged t := by
  cases h with
  | note e he => exact ⟨rfl, [e], rfl, .aside he _ _⟩
  | override hd => exact ⟨rfl, [_], rfl, .aside rfl _ _⟩
  | _ => exact ⟨rfl, [], rfl, .nil _ _⟩

end Machine

namespace Run

open Machine

variable {α : Type}

theorem framed_logged {x : Run α} (hx : ∀ s, Logged s (x s).2) (s : Machine) :
    Logged s (framed x s).2 := by
  cases ha : s.admits with
  | false =>
    rw [framed_of_not_admits x ha]
    exact ⟨rfl, [_], rfl, .refusal ha⟩
  | true =>
    rw [framed_of_admits x ha]
    obtain ⟨hst, es, htr, hlog⟩ := hx s.entered
    have hdepth : (x s.entered).2.stack.leave = s.stack := by
      rw [hst]
      rfl
    refine ⟨hdepth, .left s.stack.depth :: (es ++ [.entered (s.stack.depth + 1)]), ?_,
      hlog.framed ha⟩
    calc (x s.entered).2.left.trace
        = .left (x s.entered).2.stack.leave.depth :: (x s.entered).2.trace := rfl
      _ = .left s.stack.depth :: (es ++ s.entered.trace) := by rw [hdepth, htr]
      _ = .left s.stack.depth :: (es ++ [.entered (s.stack.depth + 1)]) ++ s.trace := by
        simp [Machine.entered, Machine.note]

theorem congruence_logged : Congruence fun _ x _ => ∀ s, Logged s (x s).2 :=
  Congruence.ofActs Logged.refl .trans Act.logged

theorem dispatch_logged (n : Nat) :
    Invoker.Corresponds (fun _ x _ => ∀ s, Logged s (x s).2) (dispatch n) (dispatch n) :=
  congruence_logged.dispatch framed_logged (fun _ => .refl) (fun _ => .refl) n

theorem operation_logged (n : Nat) (op : Operation) (s : Machine) :
    Logged s (op.run (dispatch n) s).2 :=
  congruence_logged.operation (dispatch_logged n) op s

end Run

namespace Script

theorem step_logged (host : Nat) (s : Machine) (x : Step) : s.Logged (step host s x).2 :=
  Run.congruence_logged.swept (y := x.run (invoker host s) .top) _
    (Run.congruence_logged.step (Run.dispatch_logged _) .top (fun _ => .refl) x) s

theorem run_logged (host : Nat) (s : Machine) (xs : List Step) :
    s.Logged (run host s xs).2 := by
  induction xs generalizing s with
  | nil => exact .refl s
  | cons x xs ih => exact (step_logged host s x).trans (ih _)

end Script

/-! ## The discipline of frames -/

namespace Machine

/-- Installing the built-ins leaves the stack as it was. -/
theorem register_stack (n : Nat) (which : Registration) (s : Machine) :
    ((dispatch n).register which s).2.stack = s.stack :=
  (Run.congruence_logged.register (Run.dispatch_logged n) (fun _ => .refl) which s).1

/-- A fresh machine has no open frames. -/
theorem stack_fresh (l : Limits) : (fresh l).stack = .new l := by
  rw [fresh_eq, untraced_stack, register_stack]
  rfl

/-- With one frame to spare in the budget, a request for a function is refused exactly at
the limit. A refusal changes nothing but the trace. -/
theorem refused_iff (n : Nat) {s : Machine} {r : Request} {L : Nat}
    (hf : (s.heap.get r.function).isCallable = true) (hL : s.stack.limits.maxDepth = some L)
    (hd : s.stack.depth ≤ L) :
    dispatch (n + 1) r s = (.raised .depthExceeded, s.refused) ↔ s.stack.depth = L := by
  obtain ⟨c, hc⟩ := Option.isSome_iff_exists.mp hf
  have hserve : dispatch (n + 1) r s = Run.framed ((dispatch n).body c r) s :=
    (dispatch n).serve_of_callable r hc
  have hadmits : s.admits = decide (s.stack.depth < L) := by
    simp only [admits, Limits.admits, hL]
  rw [hserve]
  constructor
  · intro heq
    refine (Nat.lt_or_eq_of_le hd).resolve_left fun hlt => ?_
    rw [Run.framed_of_admits _ (hadmits.trans (decide_eq_true hlt))] at heq
    have htrace := congrArg (fun out => out.2.trace.head?) heq
    simp [left, refused, note] at htrace
  · intro heq
    refine Run.framed_of_not_admits _ (hadmits.trans (decide_eq_false ?_))
    omega

/-- The depth of calls is balanced and bounded, whatever an operation runs and however it
ends. Afterwards the stack is as it was; at every moment in between the depth is the depth
at the beginning and the frames that are open; and with a limit it never passes the limit,
where alone frames are refused. A script therefore ends each of its steps at depth zero. -/
theorem depth_balanced (n : Nat) (op : Operation) (s : Machine) :
    (op.run (dispatch n) s).2.stack = s.stack ∧
    (∃ es, (op.run (dispatch n) s).2.trace = es ++ s.trace ∧
      FrameLog s.stack.limits s.stack.depth es ∧
      ∀ L, s.stack.limits.maxDepth = some L → s.stack.depth ≤ L → ∀ e now, e :: now <:+ es →
        s.stack.depth + opened (e :: now) ≤ L + closed (e :: now) ∧
          (∀ k, e = .entered k → k ≤ L) ∧ (∀ k, e = .frameRefused k → k = L)) ∧
    (∀ (r : Request) (L : Nat), (s.heap.get r.function).isCallable = true →
      s.stack.limits.maxDepth = some L → s.stack.depth ≤ L →
      (dispatch (n + 1) r s = (.raised .depthExceeded, s.refused) ↔ s.stack.depth = L)) ∧
    ∀ (l : Limits) (host : Nat) (steps : List Step),
      (Script.run host (fresh l) steps).2.stack.depth = 0 := by
  obtain ⟨hstack, es, htrace, hlog⟩ := Run.operation_logged n op s
  refine ⟨hstack, ⟨es, htrace, hlog, ?_⟩, fun r L => refused_iff n, ?_⟩
  · intro L hL hd e now hn
    have hle := hlog.depth_le hL hd hn
    have ho := hlog.inOrder e now hn
    refine ⟨hle, ?_, ?_⟩
    · rintro k rfl
      have hk := ho.depth_eq k rfl
      omega
    · rintro k rfl
      have hk := ho.depth_eq k rfl
      have hge : ¬ k < L := by simpa [Limits.admits, hL] using ho.refused k rfl
      omega
  · intro l host steps
    rw [(Script.run_logged host (fresh l) steps).1, stack_fresh]
    rfl

end Machine
end ScriptModel
