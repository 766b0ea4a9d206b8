import ScriptModel.Proofs.Machine.Move

/-!
# Undetermined operands

A method of the two prototypes looks at its operands before it does anything. When the
receiver or an argument is undetermined, at whatever position and whether the method has a
use for it or not, the result is undetermined, and nothing was checked, converted, read or
run on the way.
-/

namespace ScriptModel

theorem Value.anyUnknown_iff {vs : List Value} :
    Value.anyUnknown vs = true ↔ .unknown ∈ vs := by
  unfold anyUnknown
  rw [List.any_eq_true]
  constructor
  · rintro ⟨v, hv, hu⟩
    cases v with
    | unknown => exact hv
    | _ => cases hu
  · intro hu
    exact ⟨.unknown, hu, rfl⟩

namespace Run

variable {self : Value} {args : List Value}

theorem gated_of_unknown (hu : Value.unknown ∈ self :: args) (x : Run Value) :
    gated self args x = pure .unknown := by
  rw [gated, if_pos (Value.anyUnknown_iff.mpr hu)]

theorem gated_of_known (hk : Value.unknown ∉ self :: args) (x : Run Value) :
    gated self args x = x := by
  rw [gated, if_neg fun hu => hk (Value.anyUnknown_iff.mp hu)]

end Run

namespace Builtin

/-- The behaviour depends on its operands. -/
def isGated : Builtin → Bool
  | idle => false
  | throwTypeError => false
  | _ => true

/-- All methods of the two prototypes are gated. -/
theorem isGated_of_mem {m : Method} (hm : m ∈ Method.ofObject ++ Method.ofFunction) :
    m.behaviour.isGated = true := by
  revert m
  decide

/-- A gated behaviour with an undetermined operand makes no use of the invoker. -/
theorem run_of_unknown {b : Builtin} (hb : b.isGated = true) {self : Value}
    {args : List Value} (hu : Value.unknown ∈ self :: args) (inv : Invoker) :
    b.run inv self args = pure .unknown := by
  cases b with
  | idle => cases hb
  | throwTypeError => cases hb
  | _ => exact Run.gated_of_unknown hu _

end Builtin

namespace Machine

/-- The gate for undetermined operands stands before everything else in each of the ten
methods. With an undetermined operand among the receiver and the arguments, a method yields
`unknown` and leaves the machine as it is; what the invoker would have served does not
matter, because it is not asked. A call of a function with such a behaviour opens and closes
its frame, and that is all. -/
theorem unknown_gate {m : Method} (hm : m ∈ Method.ofObject ++ Method.ofFunction)
    {self : Value} {args : List Value} (hu : Value.unknown ∈ self :: args) :
    (∀ (inv : Invoker) (s : Machine), m.behaviour.run inv self args s = (.done .unknown, s)) ∧
    ∀ (n : Nat) (s : Machine) (f : Address) (g : Native Step),
      (s.heap.get f).callable = some (.native g) → g.behaviour = .builtin m.behaviour →
      s.admits = true →
      (dispatch (n + 1)).call f self args s =
        (.done .unknown,
          { s with
            trace := .left s.stack.depth :: .entered (s.stack.depth + 1) :: s.trace }) := by
  have hrun := fun inv => Builtin.run_of_unknown (Builtin.isGated_of_mem hm) hu inv
  refine ⟨fun inv s => by rw [hrun, Run.pure_apply], fun n s f g hf hg ha => ?_⟩
  have hbody : (dispatch n).callBody self args (.native g) = pure .unknown := by
    rw [← hrun (dispatch n)]
    simp only [Invoker.callBody, hg]
  -- What the caller holds meanwhile, the method does not look at.
  let u : Machine := { s with held := [.object f, self] ++ s.held }
  have hserve : dispatch (n + 1) (.call f self args) u =
      Run.framed ((dispatch n).callBody self args (.native g)) u :=
    (dispatch n).serve_of_callable (.call f self args) (s := u) hf
  have hframed : Run.framed ((dispatch n).callBody self args (.native g)) u =
      (.done .unknown, u.entered.left) := by
    rw [hbody]
    exact Run.framed_of_admits _ ha
  exact Run.holding_of_eq (hserve.trans hframed)

/-- Own properties are not asked for on null when an argument that nobody reads is
undetermined. -/
theorem hasOwnProperty_of_null_and_unknown :
    (⟨"hasOwnProperty", 1, .hasOwnProperty⟩ : Method) ∈ Method.ofObject ++ Method.ofFunction ∧
      Value.unknown ∈ [Value.null, .object .functionPrototype, .unknown] ∧
      (∀ (inv : Invoker) (s : Machine),
        Builtin.hasOwnProperty.run inv .null [.object .functionPrototype, .unknown] s =
          (.done .unknown, s)) ∧
      ∃ s : Machine, s.admits = true ∧
        ∀ n, (dispatch (n + 1)).call ⟨3⟩ .null [.object .functionPrototype, .unknown] s =
          (.done .unknown, { s with trace := [.left 0, .entered 1] }) := by
  have hm : (⟨"hasOwnProperty", 1, .hasOwnProperty⟩ : Method) ∈
      Method.ofObject ++ Method.ofFunction := by decide
  have hu : Value.unknown ∈ [Value.null, .object .functionPrototype, .unknown] := by decide
  let method : Object := .native "hasOwnProperty" 1 (.builtin .hasOwnProperty) none
  let s : Machine := (bare .standard).withHeap (bareHeap.alloc method)
  refine ⟨hm, hu, (unknown_gate hm hu).1, s, rfl, fun n => ?_⟩
  exact (unknown_gate hm hu).2 n s ⟨3⟩
    ⟨"hasOwnProperty", 1, .builtin .hasOwnProperty, none⟩ rfl rfl rfl

end Machine
end ScriptModel
