import ScriptModel.Exception

/-!
# The call stack

Calls nest, and a chain of calls that never ends would exhaust the host. The call stack
counts the frames that are open and refuses the one that would exceed the limit. The same
limits cap how many arguments a list may spread into one call.
-/

namespace ScriptModel

/-- The limits of a run (`CallStackConfig`). Without a depth limit only the host bounds the
nesting. -/
structure Limits where
  maxDepth : Option Nat
  maxArguments : Nat
  deriving DecidableEq

namespace Limits

def defaultDepth : Nat := 512
def defaultArguments : Nat := 65535

def standard : Limits := ⟨some defaultDepth, defaultArguments⟩

/-- A frame may be opened at this depth. -/
def admits (l : Limits) (depth : Nat) : Bool :=
  match l.maxDepth with
  | none => true
  | some m => decide (depth < m)

/-- How many frames a dispatcher must be prepared to nest: one more than the limit, for the
frame that is refused. Without a limit it is what the host offers. -/
def budget (l : Limits) (host : Nat) : Nat :=
  match l.maxDepth with
  | none => host
  | some m => m + 1

end Limits

structure CallStack where
  limits : Limits
  /-- The number of open frames. -/
  depth : Nat
  deriving DecidableEq

namespace CallStack

def new (l : Limits) : CallStack := ⟨l, 0⟩

/-- The stack with one more frame. -/
def enter (s : CallStack) : Except Exception CallStack :=
  if s.limits.admits s.depth then .ok { s with depth := s.depth + 1 } else .error .depthExceeded

/-- The stack with one frame less (`exit`). -/
def leave (s : CallStack) : CallStack := { s with depth := s.depth - 1 }

/-- Refuses a list of arguments that is too long (`check_argument_count`). -/
def checkArguments (s : CallStack) (count : Nat) : Except Exception Unit :=
  if s.limits.maxArguments < count then .error .tooManyArguments else .ok ()

/-- Enters `n` frames, or as many as the limit allows. -/
def enterMany : Nat → CallStack → Option Exception × CallStack
  | 0, s => (none, s)
  | n + 1, s =>
    match s.enter with
    | .ok t => enterMany n t
    | .error e => (some e, s)

/-- Leaves `n` frames, or as many as are open. -/
def leaveMany (n : Nat) (s : CallStack) : CallStack := { s with depth := s.depth - n }

theorem enter_of_admits {s : CallStack} (h : s.limits.admits s.depth = true) :
    s.enter = .ok { s with depth := s.depth + 1 } := by simp [enter, h]

theorem enter_of_not_admits {s : CallStack} (h : s.limits.admits s.depth = false) :
    s.enter = .error .depthExceeded := by simp [enter, h]

end CallStack
end ScriptModel
