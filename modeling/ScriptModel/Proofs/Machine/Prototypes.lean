import ScriptModel.Proofs.Heap.Above
import ScriptModel.Proofs.Machine.Reachable

/-!
# Prototypes on reachable machines

Objects are made, relinked, closed to new properties and lost, in any order and with any
prototypes; each of these is a move of the machine, and no move closes a cycle. So on every
machine that can be reached to stand above is a strict order, every walk along links is over
after as many objects as there are, and a request for another prototype is decided by that
order.
-/

namespace ScriptModel
namespace Run

open Machine

variable {s : Machine} {o : Address} {p : Option Address}

/-- A request that is granted sets the prototype and changes nothing else. -/
theorem setPrototype_of_grants (hh : s.heap.Acyclic) (ho : s.heap.contains o = true)
    (hp : ∀ q, p = some q → s.heap.contains q = true) (hg : s.heap.Grants o p) :
    ∃ h, setPrototype o p s = (.done true, s.withHeap h) ∧ h.size = s.heap.size ∧
      ∀ a, h.get a = if a = o then { s.heap.get a with proto := p } else s.heap.get a := by
  obtain ⟨h, hset⟩ := Option.isSome_iff_exists.mp (hh.setPrototype_isSome_iff.mpr hg)
  refine ⟨h, ?_, Heap.size_setPrototype hset, Heap.get_setPrototype hset ho hp⟩
  simp only [setPrototype, hset]

/-- A request that is refused changes nothing. -/
theorem setPrototype_of_not_grants (hh : s.heap.Acyclic) (hg : ¬ s.heap.Grants o p) :
    setPrototype o p s = (.done false, s) := by
  have hset : s.heap.setPrototype o p = none := by
    rw [← Option.not_isSome_iff_eq_none, hh.setPrototype_isSome_iff]
    exact hg
  simp only [setPrototype, hset]

end Run

namespace Machine

/-- Prototype chains have no cycles, at any moment of any run. To stand above is
irreflexive, asymmetric and transitive, and it is what `isAbove` decides. Every walk along
links ends, and those of the look-ups, of the check for cycles and of the test for ancestors
come to what these say. A request for another prototype is granted exactly when the object
has it already, or is extensible and neither is the prototype nor stands above it; then the
object has the prototype and nothing else has changed. Otherwise nothing has. -/
theorem prototype_chains_end {l : Limits} {s : Machine} (hs : Reachable l s) :
    (∀ a, ¬ s.heap.Above a a) ∧
    (∀ a b, s.heap.Above a b → ¬ s.heap.Above b a) ∧
    (∀ a b c, s.heap.Above a b → s.heap.Above b c → s.heap.Above a c) ∧
    (∀ p a, s.heap.isAbove p a = true ↔ s.heap.Above p a) ∧
    (∀ sought p, ∃ r, ∀ n, s.heap.size < n → s.heap.walk sought n p = some r) ∧
    (∀ n, s.heap.size < n →
      (∀ k a, s.heap.walk (fun b => (s.heap.get b).hasOwn k) n (some a) =
        some (s.heap.holder? a k)) ∧
      (∀ o p, (s.heap.walk (· == o) n p).map Option.isSome = some (s.heap.wouldCycle o p)) ∧
      ∀ p a, (s.heap.walk (· == p) n (s.heap.get a).proto).map Option.isSome =
        some (s.heap.isAbove p a)) ∧
    ∀ o p, s.heap.contains o = true → (∀ q, p = some q → s.heap.contains q = true) →
      (s.heap.Grants o p →
        ∃ h, Run.setPrototype o p s = (.done true, s.withHeap h) ∧ h.size = s.heap.size ∧
          ∀ a, h.get a = if a = o then { s.heap.get a with proto := p } else s.heap.get a) ∧
      (¬ s.heap.Grants o p → Run.setPrototype o p s = (.done false, s)) := by
  have hh := hs.sound.acyclic
  refine ⟨hh.not_above_self, fun a b => hh.not_above_of_above,
    fun a b c => Heap.Above.trans, fun p a => hh.isAbove_iff, hh.walk_ends,
    fun n hn => ⟨fun k a => hh.walk_holder k hn a, fun o p => hh.walk_wouldCycle o p hn,
      fun p a => hh.walk_isAbove p a hn⟩,
    fun o p ho hp => ⟨Run.setPrototype_of_grants hh ho hp, Run.setPrototype_of_not_grants hh⟩⟩

/-- Object.prototype cannot be put below Function.prototype on a fresh machine, which it
stands above. -/
theorem objectPrototype_stays_on_top :
    (fresh .standard).heap.Above .objectPrototype .functionPrototype ∧
      ¬ (fresh .standard).heap.Above .functionPrototype .objectPrototype ∧
      Run.setPrototype .objectPrototype (some .functionPrototype) (fresh .standard) =
        (.done false, fresh .standard) := by
  obtain ⟨_, hasymm, _, _, _, _, hset⟩ := prototype_chains_end (l := .standard) .fresh
  have hfresh : (fresh .standard).heap.contains .objectPrototype = true ∧
      (fresh .standard).heap.contains .functionPrototype = true ∧
      ((fresh .standard).heap.get .functionPrototype).proto = some .objectPrototype ∧
      ((fresh .standard).heap.get .objectPrototype).proto ≠ some .functionPrototype := by
    decide +kernel
  obtain ⟨ho, hf, hlink, hne⟩ := hfresh
  have habove : (fresh .standard).heap.Above .objectPrototype .functionPrototype :=
    .single hlink
  have hexists : ∀ q, some Address.functionPrototype = some q →
      (fresh .standard).heap.contains q = true := by
    rintro q ⟨⟩
    exact hf
  refine ⟨habove, hasymm _ _ habove, (hset _ _ ho hexists).2 ?_⟩
  rintro (hsame | ⟨_, hfree⟩)
  · exact hne hsame
  · exact (hfree _ rfl).2 habove

end Machine
end ScriptModel
