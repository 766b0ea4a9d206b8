import Mathlib.Data.List.DropRight
import Mathlib.Tactic.Ring
import ScriptModel.Number.Text

/-!
# Whole numbers as doubles

Below 2^53 in magnitude a whole number is a double, and the doubles next to it are at most
one away from it. So no shorter decimal than its own digits reads back as it, up to the
zeros at their end, and the positional text of the double is the text of the integer.
-/

namespace ScriptModel

/-! ## Decimal digits -/

/-- A power of ten adds zeros at the end. -/
theorem toDigits_mul_pow {c : Nat} (hc : 0 < c) (k : Nat) :
    Nat.toDigits 10 (c * 10 ^ k) = Nat.toDigits 10 c ++ List.replicate k '0' := by
  induction k with
  | zero => simp
  | succ k ih =>
    have hpos : 0 < c * 10 ^ k := Nat.mul_pos hc (Nat.pow_pos (by omega))
    have hlast : Nat.toDigits 10 0 = ['0'] := by decide
    calc Nat.toDigits 10 (c * 10 ^ (k + 1))
        = Nat.toDigits 10 (10 * (c * 10 ^ k) + 0) := by congr 1; ring
      _ = Nat.toDigits 10 (c * 10 ^ k) ++ Nat.toDigits 10 0 :=
          (Nat.toDigits_append_toDigits (by omega) hpos (by omega)).symm
      _ = Nat.toDigits 10 c ++ List.replicate (k + 1) '0' := by
          rw [ih, hlast, List.append_assoc, ← List.replicate_succ']

/-- What is cut from the end of the digits was zeros. -/
theorem Decimal.digits_pad (c : Nat) (k : Int) :
    (Decimal.mk c k).digits.length ≤ (Nat.toDigits 10 c).length ∧
      (Decimal.mk c k).digits ++ List.replicate
        ((Nat.toDigits 10 c).length - (Decimal.mk c k).digits.length) '0' =
          Nat.toDigits 10 c := by
  change ((Nat.toDigits 10 c).rdropWhile (· == '0')).length ≤ _ ∧
    (Nat.toDigits 10 c).rdropWhile (· == '0') ++ List.replicate
      (_ - ((Nat.toDigits 10 c).rdropWhile (· == '0')).length) '0' = _
  generalize Nat.toDigits 10 c = l
  have hsplit : l.rdropWhile (· == '0') ++ l.rtakeWhile (· == '0') = l :=
    List.rdropWhile_append_rtakeWhile
  have hzeros : l.rtakeWhile (· == '0') =
      List.replicate (l.rtakeWhile (· == '0')).length '0' := by
    refine List.eq_replicate_length.mpr fun x hx => ?_
    simpa using List.mem_rtakeWhile_imp hx
  have hlength := congrArg List.length hsplit
  rw [List.length_append] at hlength
  refine ⟨by omega, ?_⟩
  have hcut : l.length - (l.rdropWhile (· == '0')).length =
      (l.rtakeWhile (· == '0')).length := by omega
  rw [hcut, ← hzeros, hsplit]

/-- Without a point, a whole number is its digits and zeros up to the unit. -/
theorem Layout.plain_point {ds : List Char} {n : Nat} (h : ds.length ≤ n + 1) :
    Layout.plain.point ds n = ds ++ List.replicate (n + 1 - ds.length) '0' := by
  have hn : ((n : Int) + 1).toNat = n + 1 := by omega
  unfold Layout.point
  rw [if_neg (by omega), hn, if_pos h]
  exact List.append_nil _

namespace Binary64

-- The exponent is a variable, so that no tactic attempts to write the power out.
theorem unitsPerOne_eq {n : Nat} (h : 1074 = n) : unitsPerOne = 2 ^ n := by
  unfold unitsPerOne
  rw [h]
  rfl

theorem unitsPerOne_pos : 0 < unitsPerOne := by
  obtain ⟨n, h⟩ : ∃ n, 1074 = n := ⟨_, rfl⟩
  rw [unitsPerOne_eq h]
  exact Nat.two_pow_pos n

/-! ## Significands of 53 bits -/

section Normal

variable {r e : Nat} (hlow : 2 ^ 52 ≤ r)
include hlow

/-- A payload whose significand has all its bits. The bound is included, where the leading
bit is carried into the exponent. -/
theorem magnitude_normal (hhigh : r ≤ 2 ^ 53) : magnitude (e * 2 ^ 52 + r) = r * 2 ^ e := by
  unfold magnitude
  simp only [Nat.pow_eq]
  rcases Nat.lt_or_eq_of_le hhigh with hlt | rfl
  · have hdiv : (e * 2 ^ 52 + r) / 2 ^ 52 = e + 1 := by omega
    have hmod : (e * 2 ^ 52 + r) % 2 ^ 52 = r - 2 ^ 52 := by omega
    rw [hdiv, hmod, if_neg (by omega), Nat.add_sub_cancel' hlow, Nat.add_sub_cancel]
  · have hdiv : (e * 2 ^ 52 + 2 ^ 53) / 2 ^ 52 = e + 2 := by omega
    have hmod : (e * 2 ^ 52 + 2 ^ 53) % 2 ^ 52 = 0 := by omega
    rw [hdiv, hmod, if_neg (by omega), Nat.add_zero]
    calc 2 ^ 52 * 2 ^ (e + 1) = 2 ^ (52 + 1) * 2 ^ e := by ring
      _ = 2 ^ 53 * 2 ^ e := rfl

/-- A number of units with a significand of 53 bits is a double. -/
theorem roundPayload_normal (hhigh : r < 2 ^ 53) (he : e ≤ 2045) :
    roundPayload (r * 2 ^ e) 1 = e * 2 ^ 52 + r := by
  have hlog : (r * 2 ^ e).log2 = e + 52 := by
    have hpos : r * 2 ^ e ≠ 0 := (Nat.mul_pos (by omega) (Nat.two_pow_pos e)).ne'
    rw [Nat.log2_eq_iff hpos]
    constructor
    · calc 2 ^ (e + 52) = 2 ^ 52 * 2 ^ e := by ring
        _ ≤ r * 2 ^ e := Nat.mul_le_mul_right _ hlow
    · calc r * 2 ^ e < 2 ^ 53 * 2 ^ e := Nat.mul_lt_mul_of_pos_right hhigh (Nat.two_pow_pos e)
        _ = 2 ^ (e + 52 + 1) := by ring
  unfold roundPayload
  simp only [Nat.pow_eq, Nat.div_one, hlog, Nat.add_sub_cancel, one_mul]
  rw [divRoundEven_mul r (Nat.two_pow_pos e)]
  refine Nat.min_eq_left ?_
  show _ ≤ 2047 * 2 ^ 52
  omega

/-- The double below is at most one step of the exponent away. -/
theorem magnitude_pred (hhigh : r < 2 ^ 53) (he : 0 < e) :
    magnitude (e * 2 ^ 52 + r - 1) < r * 2 ^ e ∧
      r * 2 ^ e ≤ magnitude (e * 2 ^ 52 + r - 1) + 2 ^ e := by
  rcases Nat.lt_or_eq_of_le hlow with hlt | rfl
  · rw [show e * 2 ^ 52 + r - 1 = e * 2 ^ 52 + (r - 1) by omega,
      magnitude_normal (by omega) (by omega)]
    have hpos := Nat.two_pow_pos e
    have hstep : r * 2 ^ e = (r - 1) * 2 ^ e + 2 ^ e := by
      rw [← Nat.succ_mul]
      congr 1
      omega
    omega
  · -- A power of two is the first double of its exponent: the step below is half as wide.
    obtain ⟨d, rfl⟩ : ∃ d, e = d + 1 := ⟨e - 1, by omega⟩
    rw [show (d + 1) * 2 ^ 52 + 2 ^ 52 - 1 = d * 2 ^ 52 + (2 ^ 53 - 1) by omega,
      magnitude_normal (by omega) (by omega), Nat.pow_succ]
    have hpos := Nat.two_pow_pos d
    omega

end Normal

/-! ## Whole numbers and their neighbours -/

/-- The payload stands for the whole number, and the payloads next to it for numbers at most
one away. -/
structure Whole (p m : Nat) : Prop where
  finite : p < infinityPayload
  magnitude_eq : magnitude p = m * unitsPerOne
  pred_lt : magnitude (p - 1) < m * unitsPerOne
  le_pred : m * unitsPerOne ≤ magnitude (p - 1) + unitsPerOne
  lt_succ : m * unitsPerOne < magnitude (p + 1)
  succ_le : magnitude (p + 1) ≤ m * unitsPerOne + unitsPerOne

/-- A whole number below 2^53 has a significand of 53 bits, at a unit no larger than one. -/
theorem exists_significand {m : Nat} (h0 : 0 < m) (h : m < 2 ^ 53) :
    ∃ r e, 2 ^ 52 ≤ r ∧ r < 2 ^ 53 ∧ 0 < e ∧ e ≤ 1074 ∧ m * unitsPerOne = r * 2 ^ e := by
  have hlog : m.log2 ≤ 52 := Nat.le_of_lt_succ ((Nat.log2_lt h0.ne').mpr h)
  have hbits := (Nat.log2_eq_iff h0.ne').mp rfl
  refine ⟨m * 2 ^ (52 - m.log2), m.log2 + 1022, ?_, ?_, by omega, by omega, ?_⟩
  · calc 2 ^ 52 = 2 ^ m.log2 * 2 ^ (52 - m.log2) := by rw [← Nat.pow_add]; congr 1; omega
      _ ≤ m * 2 ^ (52 - m.log2) := Nat.mul_le_mul_right _ hbits.1
  · calc m * 2 ^ (52 - m.log2) < 2 ^ (m.log2 + 1) * 2 ^ (52 - m.log2) :=
          Nat.mul_lt_mul_of_pos_right hbits.2 (Nat.two_pow_pos _)
      _ = 2 ^ 53 := by rw [← Nat.pow_add]; congr 1; omega
  · rw [Nat.mul_assoc, ← Nat.pow_add]
    exact congrArg (m * ·) (unitsPerOne_eq (by omega))

theorem whole_of_lt {m : Nat} (h0 : 0 < m) (h : m < 2 ^ 53) :
    Whole (roundPayload (m * unitsPerOne) 1) m := by
  obtain ⟨r, e, hlow, hhigh, he0, he, hunits⟩ := exists_significand h0 h
  have hone : 2 ^ e ≤ unitsPerOne := by
    obtain ⟨n, h⟩ : ∃ n, 1074 = n := ⟨_, rfl⟩
    rw [unitsPerOne_eq h]
    exact Nat.pow_le_pow_right (by omega) (by omega)
  have hpred := magnitude_pred hlow hhigh he0
  have hsucc : magnitude (e * 2 ^ 52 + r + 1) = r * 2 ^ e + 2 ^ e := by
    rw [Nat.add_assoc, magnitude_normal (by omega) (by omega), Nat.succ_mul]
  have hpos := Nat.two_pow_pos e
  rw [hunits, roundPayload_normal hlow hhigh (by omega)]
  constructor
  · show _ < 2047 * 2 ^ 52
    omega
  · rw [magnitude_normal hlow hhigh.le, hunits]
  all_goals omega

/-- Up to 2^53 a whole number is the magnitude of the payload that it is rounded to. -/
theorem magnitude_roundPayload {m : Nat} (h : m ≤ 2 ^ 53) :
    roundPayload (m * unitsPerOne) 1 < infinityPayload ∧
      magnitude (roundPayload (m * unitsPerOne) 1) = m * unitsPerOne := by
  rcases Nat.eq_zero_or_pos m with rfl | h0
  · rw [Nat.zero_mul]
    exact ⟨by decide, rfl⟩
  rcases Nat.lt_or_eq_of_le h with hlt | rfl
  · have hw := whole_of_lt h0 hlt
    exact ⟨hw.finite, hw.magnitude_eq⟩
  · -- At the bound itself the doubles are two apart, and the significand is the least.
    obtain ⟨n, hn⟩ : ∃ n, 1074 = n := ⟨_, rfl⟩
    have hunits : 2 ^ 53 * unitsPerOne = 2 ^ 52 * 2 ^ (n + 1) := by
      rw [unitsPerOne_eq hn]
      ring
    rw [hunits, roundPayload_normal le_rfl (by omega) (by omega),
      magnitude_normal le_rfl (by omega)]
    refine ⟨?_, rfl⟩
    show _ < 2047 * 2 ^ 52
    omega

namespace Whole

variable {p m : Nat} (h : Whole p m)
include h

theorem payload_ne_zero : p ≠ 0 := by
  rintro rfl
  have hlt := h.pred_lt
  rw [← h.magnitude_eq] at hlt
  exact Nat.lt_irrefl _ hlt

/-- On a grid of whole numbers nothing but the number itself reads back. -/
theorem readsBack_iff (n k : Nat) :
    readsBack p n (2 * unitsPerOne * 10 ^ k) 1 = true ↔ n * 10 ^ k = m := by
  obtain ⟨-, hm, hpl, hlp, hls, hsl⟩ := h
  have hone := unitsPerOne_pos
  generalize hU : unitsPerOne = U at *
  have hstep : n * (2 * U * 10 ^ k) = 2 * (n * 10 ^ k * U) := by ring
  generalize n * 10 ^ k = x at *
  -- The ends of the interval are less than half away, and what is not the number is one
  -- away.
  have hends : readsBack p n (2 * U * 10 ^ k) 1 = true →
      magnitude (p - 1) + magnitude p ≤ 2 * (x * U) ∧
        2 * (x * U) ≤ magnitude p + magnitude (p + 1) := by
    unfold readsBack
    simp only [Nat.mul_one, hstep]
    split <;> simp only [Bool.and_eq_true, decide_eq_true_eq] <;> omega
  constructor
  · intro hr
    obtain ⟨hl, hu⟩ := hends hr
    rcases Nat.lt_trichotomy x m with hlt | heq | hgt
    · have := Nat.mul_le_mul_right U (show x + 1 ≤ m by omega)
      rw [Nat.succ_mul] at this
      omega
    · exact heq
    · have := Nat.mul_le_mul_right U (show m + 1 ≤ x by omega)
      rw [Nat.succ_mul] at this
      omega
  · rintro rfl
    unfold readsBack
    simp only [Nat.mul_one, hstep]
    split <;> simp only [Bool.and_eq_true, decide_eq_true_eq] <;> omega

theorem onGrid_eq (k : Nat) :
    onGrid p k = if 10 ^ k ∣ m then some ⟨m / 10 ^ k, k⟩ else none := by
  have hpos : 0 < 10 ^ k := Nat.pow_pos (by omega)
  have hdiv : 2 * magnitude p / (2 * unitsPerOne * 10 ^ k) = m / 10 ^ k := by
    rw [h.magnitude_eq, show 2 * (m * unitsPerOne) = 2 * unitsPerOne * m by ring]
    exact Nat.mul_div_mul_left _ _ (Nat.mul_pos (by omega) unitsPerOne_pos)
  have habove : readsBack p (m / 10 ^ k + 1) (2 * unitsPerOne * 10 ^ k) 1 = false := by
    have hlt := Nat.lt_mul_div_succ m hpos
    rw [Bool.eq_false_iff, Ne, h.readsBack_iff, Nat.mul_comm]
    omega
  have hbelow :
      readsBack p (m / 10 ^ k) (2 * unitsPerOne * 10 ^ k) 1 = decide (10 ^ k ∣ m) := by
    rw [Bool.eq_iff_iff, h.readsBack_iff, decide_eq_true_iff, Nat.dvd_iff_div_mul_eq]
  unfold onGrid
  simp only [Int.toNat_natCast, Int.toNat_neg_natCast, Nat.pow_eq, Nat.pow_zero,
    Nat.mul_one, hdiv,
    habove, hbelow, Bool.false_and, Bool.false_eq_true, if_false, decide_eq_true_eq]

theorem pos : 0 < m := by
  rcases Nat.eq_zero_or_pos m with rfl | hm
  · have := h.pred_lt
    omega
  · exact hm

theorem leadingExponent_eq : leadingExponent p = (Nat.toDigits 10 m).length - 1 := by
  have hdiv (x : Nat) : magnitude p * x / unitsPerOne = m * x := by
    rw [h.magnitude_eq, Nat.mul_right_comm]
    exact Nat.mul_div_cancel _ unitsPerOne_pos
  unfold leadingExponent
  generalize hk : 324 = k
  rw [hdiv, Nat.pow_eq, toDigits_mul_pow h.pos, List.length_append, List.length_replicate]
  omega

/-- The shortest decimal of a whole number is the number, some of its zeros in the
exponent. -/
theorem shortest_eq (hm : m < 10 ^ 17) :
    ∃ c k : Nat, shortest p = ⟨c, k⟩ ∧ c * 10 ^ k = m := by
  obtain ⟨top, htop⟩ : ∃ top, (Nat.toDigits 10 m).length = top + 1 :=
    Nat.exists_eq_succ_of_ne_zero Nat.length_toDigits_pos.ne'
  have hrange : top + 1 ≤ 17 := by
    rw [← htop]
    exact (Nat.length_toDigits_le_iff (by omega) (by omega)).mpr hm
  let grid (d : Nat) : Option Decimal := onGrid p (leadingExponent p - (d : Int))
  have hgrid (d : Nat) (hd : d ≤ top) : grid d =
      if 10 ^ (top - d) ∣ m then some ⟨m / 10 ^ (top - d), (top - d : Nat)⟩ else none := by
    rw [← h.onGrid_eq]
    show onGrid p _ = _
    rw [h.leadingExponent_eq, htop]
    congr 1
    omega
  -- The search ends at the grid of whole numbers at the latest.
  obtain ⟨x, hx⟩ : ∃ x, (List.range (top + 1)).findSome? grid = some x := by
    rw [← Option.isSome_iff_exists, List.findSome?_isSome_iff]
    refine ⟨top, by simp, ?_⟩
    simp [hgrid top le_rfl]
  have hshortest : shortest p = x := by
    show ((List.range 17).findSome? grid).getD _ = x
    rw [show 17 = top + 1 + (16 - top) by omega, List.range_add, List.findSome?_append, hx]
    rfl
  obtain ⟨d, hd, hgridd⟩ := List.exists_of_findSome?_eq_some hx
  rw [hgrid d (Nat.le_of_lt_succ (List.mem_range.mp hd))] at hgridd
  split at hgridd
  · rename_i hdvd
    cases hgridd
    exact ⟨_, _, hshortest, Nat.div_mul_cancel hdvd⟩
  · cases hgridd

/-- The double is written as the integer. -/
theorem plain_magnitude (hm : m < 10 ^ 17) :
    Layout.plain.magnitude p = Nat.toDigits 10 m := by
  obtain ⟨c, k, hshortest, hck⟩ := h.shortest_eq hm
  have hc : 0 < c := by
    rcases Nat.eq_zero_or_pos c with rfl | hc
    · have := h.pos
      omega
    · exact hc
  have hdigits : Nat.toDigits 10 m = Nat.toDigits 10 c ++ List.replicate k '0' := by
    rw [← hck]
    exact toDigits_mul_pow hc k
  have hlength := congrArg List.length hdigits
  rw [List.length_append, List.length_replicate] at hlength
  have hpos : 0 < (Nat.toDigits 10 c).length := Nat.length_toDigits_pos
  have hleading : (Decimal.mk c k).leading = ((Nat.toDigits 10 m).length - 1 : Nat) := by
    show (k : Int) + (Nat.toDigits 10 c).length - 1 = _
    omega
  obtain ⟨hle, hpad⟩ := Decimal.digits_pad c k
  have hwhole : (Nat.toDigits 10 m).length - 1 + 1 = (Nat.toDigits 10 c).length + k := by
    omega
  calc Layout.plain.magnitude p
      = Layout.plain.point (Decimal.mk c k).digits (Decimal.mk c k).leading := by
        rw [← hshortest]
        rfl
    _ = (Decimal.mk c k).digits ++ List.replicate ((Nat.toDigits 10 c).length -
          (Decimal.mk c k).digits.length + k) '0' := by
        rw [hleading, Layout.plain_point (by omega), hwhole]
        congr 2
        omega
    _ = Nat.toDigits 10 m := by
        rw [List.replicate_add, ← List.append_assoc, hpad, hdigits]

end Whole

/-! ## Integers -/

theorem payload_ofInt (i : Int) :
    (ofInt i).payload = roundPayload (i.natAbs * unitsPerOne) 1 := by
  have hle := roundPayload_le (i * unitsPerOne).natAbs 1
  rw [ofInt, ofUnits, payload_ofPayload (Nat.lt_of_le_of_lt hle (by decide)),
    Int.natAbs_mul, Int.natAbs_natCast]

theorem isNegative_ofInt (i : Int) : (ofInt i).isNegative = decide (i < 0) := by
  have hle := roundPayload_le (i * unitsPerOne).natAbs 1
  have hone : (0 : Int) < unitsPerOne := Int.natCast_pos.mpr unitsPerOne_pos
  rw [ofInt, ofUnits, isNegative_ofPayload (Nat.lt_of_le_of_lt hle (by decide)),
    decide_eq_decide]
  exact ⟨fun h => Int.neg_of_mul_neg_left h hone, fun h => Int.mul_neg_of_neg_of_pos h hone⟩

section Exact

variable {i : Int} (hi : i.natAbs ≤ 2 ^ 53)
include hi

theorem isFinite_ofInt : (ofInt i).isFinite = true := by
  rw [isFinite, decide_eq_true_iff, payload_ofInt]
  exact (magnitude_roundPayload hi).1

theorem magnitude_ofInt : magnitude (ofInt i).payload = i.natAbs * unitsPerOne := by
  rw [payload_ofInt]
  exact (magnitude_roundPayload hi).2

/-- Nothing is rounded. -/
theorem units_ofInt : (ofInt i).units = i * unitsPerOne := by
  rw [units, isNegative_ofInt, magnitude_ofInt hi, Int.natCast_mul]
  by_cases h : i < 0
  · rw [if_pos (by simpa using h), ← Int.neg_mul]
    congr 1
    omega
  · rw [if_neg (by simpa using h)]
    congr 1
    omega

theorem integerPart_ofInt : (ofInt i).integerPart = i := by
  rw [integerPart, units_ofInt hi]
  exact Int.mul_tdiv_cancel _ (Int.natCast_pos.mpr unitsPerOne_pos).ne'

end Exact

theorem payload_ofInt_cases {i : Int} (hi : i.natAbs < 2 ^ 53) :
    i = 0 ∧ (ofInt i).payload = 0 ∨ Whole (ofInt i).payload i.natAbs := by
  rw [payload_ofInt]
  rcases Nat.eq_zero_or_pos i.natAbs with h0 | hpos
  · exact .inl ⟨Int.natAbs_eq_zero.mp h0, by rw [h0, Nat.zero_mul]; rfl⟩
  · exact .inr (whole_of_lt hpos hi)

/-- The double has the text of the integer. -/
theorem render_ofInt {i : Int} (hi : i.natAbs < 2 ^ 53) :
    Layout.plain.render (ofInt i) = Int.repr i := by
  have hfinite : (ofInt i).payload < infinityPayload := by
    simpa [isFinite] using isFinite_ofInt hi.le
  have hnan : (ofInt i).isNaN = false := by simpa [isNaN] using hfinite.le
  have hinfinite : (ofInt i).isInfinite = false := by simpa [isInfinite] using hfinite.ne
  have hdigits :
      (if (ofInt i).isZero then ['0'] else Layout.plain.magnitude (ofInt i).payload) =
        Nat.toDigits 10 i.natAbs := by
    rcases payload_ofInt_cases hi with ⟨rfl, h0⟩ | hw
    · rw [isZero, h0]
      decide
    · rw [if_neg (by simpa [isZero] using hw.payload_ne_zero),
        hw.plain_magnitude (by omega)]
  unfold Layout.render
  simp only [hnan, hinfinite, isNegative_ofInt, Bool.false_eq_true, if_false]
  rw [show Layout.plain.keepsPoint = false from rfl]
  simp only [Bool.false_eq_true, if_false, hdigits]
  cases i with
  | ofNat n => rfl
  | negSucc n =>
    rw [if_pos (by simp)]
    show String.ofList (['-'] ++ Nat.toDigits 10 (n + 1)) =
      String.ofList ['-'] ++ String.ofList _
    exact String.ofList_append

end Binary64

/-! ## Numbers in several representations -/

namespace Binary64

/-- The text of a double as a number, in which the infinities have their names. -/
def name (x : Binary64) : String :=
  if x.isInfinite then (if x.isNegative then "-Infinity" else "Infinity")
  else Layout.plain.render x

theorem name_of_isNaN {x : Binary64} (h : x.isNaN = true) : x.name = "NaN" := by
  have hlt : infinityPayload < x.payload := by simpa [isNaN] using h
  have hinfinite : x.isInfinite = false := by simpa [isInfinite] using hlt.ne'
  rw [name, hinfinite, Layout.render, h]
  rfl

theorem isFinite_of_isNaN {x : Binary64} (h : x.isNaN = true) : x.isFinite = false := by
  have hlt : infinityPayload < x.payload := by simpa [isNaN] using h
  simpa [isFinite] using hlt.le

theorem isInfinite_of_isFinite {x : Binary64} (h : x.isFinite = true) :
    x.isInfinite = false := by
  have hlt : x.payload < infinityPayload := by simpa [isFinite] using h
  simpa [isInfinite] using hlt.ne

end Binary64

namespace Number

/-- The representation does not show: an integer is below 2^53 in magnitude, and an infinity
is not kept as a double. -/
def isSafe : Number → Bool
  | integer i => decide (i.toInt.natAbs < 2 ^ 53)
  | double x => !x.isInfinite
  | nan => true
  | infinity => true
  | negativeInfinity => true

theorem text_of_isSafe {n : Number} (h : n.isSafe = true) : n.text = n.toBinary64.name := by
  cases n with
  | integer i =>
    have hi : i.toInt.natAbs < 2 ^ 53 := by simpa [isSafe] using h
    have hinfinite := Binary64.isInfinite_of_isFinite (Binary64.isFinite_ofInt hi.le)
    rw [toBinary64, Binary64.name, hinfinite, if_neg Bool.false_ne_true,
      Binary64.render_ofInt hi]
    rfl
  | double x =>
    have hinfinite : x.isInfinite = false := by simpa [isSafe] using h
    rw [toBinary64, Binary64.name, hinfinite]
    rfl
  | nan => decide
  | infinity => decide
  | negativeInfinity => decide

/-- Numbers that are the same denote one double, or are NaNs. -/
theorem same_iff {m n : Number} : m.same n = true ↔
    m.toBinary64 = n.toBinary64 ∨ m.isNaN = true ∧ n.isNaN = true := by
  have hbits (x y : Binary64) : x.bits = y.bits ↔ x = y := by
    cases x
    cases y
    simp
  simp only [same, isNaN, Bool.or_eq_true, Bool.and_eq_true, Bool.not_eq_true', beq_iff_eq,
    hbits]
  constructor
  · rintro (hnans | ⟨_, heq⟩)
    · exact .inr hnans
    · exact .inl heq
  · rintro (heq | hnans)
    · rw [heq]
      cases n.toBinary64.isNaN <;> simp
    · exact .inl hnans

end Number
end ScriptModel
