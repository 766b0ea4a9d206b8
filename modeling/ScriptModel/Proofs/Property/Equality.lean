import ScriptModel.Proofs.Number.Rounding
import ScriptModel.Property.Basic

/-!
# Equality of values and of properties

Two numbers are compared by what their doubles stand for. That one comparison in two
readings, which part at the NaNs and at the zeros, makes both equalities of values symmetric
and transitive, and with them the equality of properties. Only what is unknown is not the
same as itself.
-/

namespace ScriptModel

/-- The laws of an equality, except that a value need not equal itself. -/
structure IsPartialEquality {α : Type} (eq : α → α → Bool) : Prop where
  symm : ∀ a b, eq a b = eq b a
  trans : ∀ a b c, eq a b = true → eq b c = true → eq a c = true

/-! ## Numbers -/

namespace Binary64

theorem meaning_eq_nan_iff {x : Binary64} : x.meaning = .nan ↔ x.isNaN = true := by
  unfold meaning
  split_ifs <;> simp [*]

theorem meaning_eq_zero_iff {x : Binary64} : x.meaning = .finite 0 ↔ x.payload = 0 := by
  have hzero : zero.meaning = .finite 0 := by
    have hvalue : zero.value = 0 := by
      rw [value_eq_units, show zero.units = 0 from rfl, Int.cast_zero, zero_div]
    rw [meaning, hvalue]
    rfl
  rw [← hzero, meaning_eq_iff, show zero.isNaN = false from rfl,
    show zero.payload = 0 from rfl]
  grind

end Binary64

namespace Number

/-- What a number stands for as a double. -/
def meaning (n : Number) : Binary64.Meaning := n.toBinary64.meaning

/-- The sign of a number as a double, which a zero has, too. -/
def isNegative (n : Number) : Bool := n.toBinary64.isNegative

theorem equal_iff {m n : Number} :
    m.equal n = true ↔ m.meaning ≠ .nan ∧ m.meaning = n.meaning := by
  rw [equal, Binary64.numEq_iff, meaning, meaning, Ne, Binary64.meaning_eq_nan_iff,
    Bool.not_eq_true]

theorem same_iff_meaning {m n : Number} : m.same n = true ↔
    m.meaning = n.meaning ∧ (m.meaning = .finite 0 → m.isNegative = n.isNegative) := by
  have hnan : ∀ x : Binary64, x.isNaN = true → x.payload ≠ 0 := fun x h h0 => by
    rw [Binary64.isNaN, h0] at h
    cases h
  rw [same_iff, meaning, meaning, Binary64.meaning_eq_iff, Binary64.meaning_eq_zero_iff,
    Binary64.eq_iff]
  unfold isNaN isNegative
  grind

theorem same_laws : IsPartialEquality same := by
  refine ⟨fun m n => ?_, fun m n k => ?_⟩
  · rw [Bool.eq_iff_iff, same_iff_meaning, same_iff_meaning]
    grind
  · simp only [same_iff_meaning]
    grind

theorem equal_laws : IsPartialEquality equal := by
  refine ⟨fun m n => ?_, fun m n k => ?_⟩
  · rw [Bool.eq_iff_iff, equal_iff, equal_iff]
    grind
  · simp only [equal_iff]
    grind

theorem same_self (n : Number) : n.same n = true := same_iff_meaning.mpr ⟨rfl, fun _ => rfl⟩

end Number

/-! ## Values -/

namespace Value

/-- Two numbers that are both not a number. -/
inductive BothNaN : Value → Value → Prop where
  | mk {m n : Number} : m.meaning = .nan → n.meaning = .nan → BothNaN (number m) (number n)

/-- Two zeros, one of them negative and the other not. -/
inductive OppositeZeros : Value → Value → Prop where
  | mk {m n : Number} : m.meaning = .finite 0 → n.meaning = .finite 0 →
    m.isNegative ≠ n.isNegative → OppositeZeros (number m) (number n)

/-- A comparison of values has the laws that the comparison of numbers has. -/
theorem compare_laws {numbers : Number → Number → Bool} (h : IsPartialEquality numbers) :
    IsPartialEquality (compare numbers) := by
  refine ⟨fun a b => ?_, fun a b c => ?_⟩
  · cases a <;> cases b
    case number.number m n => exact h.symm m n
    all_goals simp [compare, eq_comm]
  · cases a <;> cases b <;> cases c
    case number.number.number m n k => exact h.trans m n k
    all_goals simp +contextual [compare]

theorem same_self_iff {a : Value} : a.same a = true ↔ a ≠ .unknown := by
  cases a with
  | number n => simp [same, compare, Number.same_self]
  | _ => simp [same, compare]

/-- The two equalities part only at two NaNs and at zeros of opposite sign. -/
theorem same_eq_strictEqual {a b : Value} (hnan : ¬ BothNaN a b)
    (hzeros : ¬ OppositeZeros a b) : a.same b = a.strictEqual b := by
  unfold same strictEqual
  cases a <;> cases b
  case number.number m n =>
    show m.same n = m.equal n
    rw [Bool.eq_iff_iff, Number.same_iff_meaning, Number.equal_iff]
    constructor
    · rintro ⟨heq, -⟩
      exact ⟨fun h => hnan (.mk h (heq ▸ h)), heq⟩
    · rintro ⟨-, heq⟩
      refine ⟨heq, fun h => ?_⟩
      by_contra hsign
      exact hzeros (.mk h (heq ▸ h) hsign)
  all_goals rfl

theorem BothNaN.apart {a b : Value} (h : BothNaN a b) :
    a.same b = true ∧ a.strictEqual b = false := by
  obtain ⟨hm, hn⟩ := h
  rename_i m n
  constructor
  · refine Number.same_iff_meaning.mpr ⟨hm.trans hn.symm, fun h0 => ?_⟩
    rw [hm] at h0
    cases h0
  · rw [← Bool.not_eq_true]
    exact fun heq => (Number.equal_iff.mp heq).1 hm

theorem OppositeZeros.apart {a b : Value} (h : OppositeZeros a b) :
    a.same b = false ∧ a.strictEqual b = true := by
  obtain ⟨hm, hn, hsign⟩ := h
  rename_i m n
  constructor
  · rw [← Bool.not_eq_true]
    exact fun hsame => hsign ((Number.same_iff_meaning.mp hsame).2 hm)
  · refine Number.equal_iff.mpr ⟨fun hnan => ?_, hm.trans hn.symm⟩
    rw [hm] at hnan
    cases hnan

end Value

/-! ## Properties -/

namespace Property

theorem same_data_iff {d e : DataProperty} : (data d).same (data e) = true ↔
    d.value.same e.value = true ∧ d.writable = e.writable ∧ d.enumerable = e.enumerable ∧
      d.configurable = e.configurable := by
  simp [same, and_assoc]

theorem same_accessor_iff {a b : AccessorProperty} :
    (accessor a).same (accessor b) = true ↔ a = b := by
  cases a
  cases b
  simp [same, and_assoc]

theorem same_of_kind_ne {p q : Property} (h : p.kind ≠ q.kind) : p.same q = false := by
  cases p <;> cases q
  case data.accessor => rfl
  case accessor.data => rfl
  all_goals exact absurd rfl h

theorem kind_of_same {p q : Property} (h : p.same q = true) : p.kind = q.kind := by
  by_contra hne
  rw [same_of_kind_ne hne] at h
  cases h

theorem same_laws : IsPartialEquality same := by
  have hvalue : IsPartialEquality Value.same := Value.compare_laws Number.same_laws
  refine ⟨fun p q => ?_, fun p q r hpq hqr => ?_⟩
  · cases p <;> cases q
    case data.data d e =>
      rw [Bool.eq_iff_iff, same_data_iff, same_data_iff, hvalue.symm d.value e.value]
      simp only [eq_comm]
    case accessor.accessor a b =>
      rw [Bool.eq_iff_iff, same_accessor_iff, same_accessor_iff, eq_comm]
    all_goals rfl
  · have hkind := kind_of_same hpq
    have hkind' := kind_of_same hqr
    cases p <;> cases q <;> cases r
    case data.data.data d e f =>
      rw [same_data_iff] at hpq hqr ⊢
      obtain ⟨hde, hw, he, hc⟩ := hpq
      obtain ⟨hef, hw', he', hc'⟩ := hqr
      exact ⟨hvalue.trans _ _ _ hde hef, hw.trans hw', he.trans he', hc.trans hc'⟩
    case accessor.accessor.accessor a b c =>
      rw [same_accessor_iff] at hpq hqr ⊢
      exact hpq.trans hqr
    all_goals cases hkind <;> cases hkind'

/-- A property is the same as itself, unless it holds an unknown value. -/
theorem same_self_iff {p : Property} :
    p.same p = true ↔ ¬ ∃ d : DataProperty, p = data d ∧ d.value = .unknown := by
  cases p with
  | data d => simp [same_data_iff, Value.same_self_iff]
  | accessor a => simp [same_accessor_iff]

/-- The equalities are lawful. The same value and the strictly equal one: both are symmetric
and transitive, only an unknown value is not the same as itself, and the two part exactly at
two NaNs, which are the same and not equal, and at zeros of opposite sign, which are equal
and not the same. Equality of properties is symmetric and transitive, holds of a property
and itself unless that is a data property with an unknown value, and never between the two
kinds. Numbers are compared by the exact number that their double is; an integer is rounded
to the nearest double for that. -/
theorem equalities_lawful :
    (IsPartialEquality Value.same ∧ ∀ a : Value, a.same a = true ↔ a ≠ .unknown) ∧
    IsPartialEquality Value.strictEqual ∧
    (∀ a b : Value, a.BothNaN b → a.same b = true ∧ a.strictEqual b = false) ∧
    (∀ a b : Value, a.OppositeZeros b → a.same b = false ∧ a.strictEqual b = true) ∧
    (∀ a b : Value, ¬ a.BothNaN b → ¬ a.OppositeZeros b → a.same b = a.strictEqual b) ∧
    (IsPartialEquality Property.same ∧ (∀ p : Property, p.same p = true ↔
      ¬ ∃ d : DataProperty, p = .data d ∧ d.value = .unknown) ∧
      ∀ p q : Property, p.kind ≠ q.kind → p.same q = false) ∧
    (∀ m n : Number, ((Value.number m).same (.number n) = true ↔
        m.meaning = n.meaning ∧ (m.meaning = .finite 0 → m.isNegative = n.isNegative)) ∧
      ((Value.number m).strictEqual (.number n) = true ↔
        m.meaning ≠ .nan ∧ m.meaning = n.meaning)) ∧
    ∀ i : Int64, (Number.integer i).toBinary64.IsNearest i.toInt ∧
      ((Number.integer i).isNegative = true ↔ i.toInt < 0) := by
  refine ⟨⟨Value.compare_laws Number.same_laws, fun a => Value.same_self_iff⟩,
    Value.compare_laws Number.equal_laws, fun a b h => h.apart, fun a b h => h.apart,
    fun a b => Value.same_eq_strictEqual,
    ⟨same_laws, fun p => same_self_iff, fun p q => same_of_kind_ne⟩,
    fun m n => ⟨Number.same_iff_meaning, Number.equal_iff⟩, fun i => ?_⟩
  have hi : i.toInt.natAbs ≤ 2 ^ 63 := by
    have hlow := i.le_toInt
    have hhigh := i.toInt_lt
    omega
  refine ⟨Binary64.isNearest_ofInt hi, ?_⟩
  show (Binary64.ofInt i.toInt).isNegative = true ↔ _
  rw [Binary64.isNegative_ofInt, decide_eq_true_iff]

end Property
end ScriptModel
