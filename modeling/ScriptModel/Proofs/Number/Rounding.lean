import ScriptModel.Proofs.Number.Value

/-!
# Rounding to the nearest double

A number of units lies between the magnitudes of two payloads that follow each other. It is
rounded to the nearer one, half-way to the even one, and since the payloads order the
magnitudes no other payload is nearer. What is a magnitude already stays as it is.
-/

namespace ScriptModel
namespace Binary64

/-- No finite double is nearer to the number, and where another one is just as near, the
last bit of the fraction is zero. -/
structure IsNearest (x : Binary64) (q : ℚ) : Prop where
  finite : x.isFinite = true
  nearest : ∀ y : Binary64, y.isFinite = true → |x.value - q| ≤ |y.value - q|
  even : ∀ y : Binary64, y.isFinite = true → |y.value - q| = |x.value - q| →
    y.value = x.value ∨ x.fractionField % 2 = 0

/-! ## Payloads -/

/-- The nearer one of two payloads in a row, or the even one. -/
def nearer (n p : Nat) : Nat :=
  let below := n - magnitude p
  let above := magnitude (p + 1) - n
  if below < above then p else if above < below then p + 1 else p + p % 2

/-- Every number of units is between two magnitudes in a row, and is rounded to the nearer
one. -/
theorem exists_between (n : Nat) : ∃ p, magnitude p ≤ n ∧ n < magnitude (p + 1) ∧
    roundPayload n 1 = min (nearer n p) infinityPayload := by
  rcases Nat.lt_or_ge n (2 ^ 53) with hlt | hge
  · have hmag := magnitude_of_le hlt.le
    have hsucc : magnitude (n + 1) = n + 1 := magnitude_of_le (by omega)
    have hlog : n.log2 - 52 = 0 := by
      rcases Nat.eq_zero_or_pos n with rfl | hpos
      · decide
      · have := (Nat.log2_lt hpos.ne').mpr hlt
        omega
    have hround := divRoundEven_mul n Nat.one_pos
    rw [Nat.mul_one] at hround
    refine ⟨n, hmag.le, by omega, ?_⟩
    rw [nearer, hmag, hsucc, if_pos (by omega), roundPayload]
    simp only [Nat.pow_eq, Nat.div_one, hlog, Nat.pow_zero, Nat.mul_one, Nat.zero_mul,
      Nat.zero_add, hround]
  · have hbits := (Nat.log2_eq_iff (by omega)).mp (rfl : n.log2 = n.log2)
    have hlog : 53 ≤ n.log2 := (Nat.le_log2 (by omega)).mpr hge
    obtain ⟨e, he⟩ : ∃ e, n.log2 = e + 52 := ⟨n.log2 - 52, by omega⟩
    rw [he] at hbits
    have hpos := Nat.two_pow_pos e
    -- The quotient is the significand of 53 bits, and the remainder what is cut off.
    have hlow : 2 ^ 52 ≤ n / 2 ^ e := by
      rw [Nat.le_div_iff_mul_le hpos, ← Nat.pow_add, Nat.add_comm]
      exact hbits.1
    have hhigh : n / 2 ^ e < 2 ^ 53 := by
      rw [Nat.div_lt_iff_lt_mul hpos, ← Nat.pow_add, show 53 + e = e + 52 + 1 by omega]
      exact hbits.2
    have hmag := magnitude_normal (e := e) hlow hhigh.le
    have hsucc : magnitude (e * 2 ^ 52 + n / 2 ^ e + 1) = n / 2 ^ e * 2 ^ e + 2 ^ e := by
      rw [Nat.add_assoc, magnitude_normal (by omega) hhigh, Nat.succ_mul]
    have hdiv : n / 2 ^ e * 2 ^ e + n % 2 ^ e = n := by
      rw [Nat.mul_comm]
      exact Nat.div_add_mod n (2 ^ e)
    have hmod : n % 2 ^ e < 2 ^ e := Nat.mod_lt _ hpos
    refine ⟨e * 2 ^ 52 + n / 2 ^ e, by omega, by omega, ?_⟩
    rw [nearer, hmag, hsucc, roundPayload]
    simp only [Nat.pow_eq, Nat.div_one, he, Nat.add_sub_cancel, one_mul, divRoundEven]
    generalize n / 2 ^ e * 2 ^ e = whole at *
    congr 1
    split_ifs <;> omega

/-- No payload is nearer, and the result is even where another one is as near. -/
theorem roundPayload_nearest {n : Nat} (h : roundPayload n 1 < infinityPayload) (p : Nat) :
    let error := ((magnitude (roundPayload n 1) : Int) - n).natAbs
    error ≤ ((magnitude p : Int) - n).natAbs ∧ (error = ((magnitude p : Int) - n).natAbs →
      p = roundPayload n 1 ∨ roundPayload n 1 % 2 = 0) := by
  obtain ⟨q, hlow, hhigh, hround⟩ := exists_between n
  have hnearer : roundPayload n 1 = nearer n q := by omega
  -- Every other payload lies on one side of `q` and `q + 1`, and so does its magnitude.
  have hbelow : p ≤ q → magnitude p ≤ magnitude q :=
    fun hle => magnitude_strictMono.monotone hle
  have hbelow' : p < q → magnitude p < magnitude q := fun hlt => magnitude_strictMono hlt
  have habove : q + 1 ≤ p → magnitude (q + 1) ≤ magnitude p :=
    fun hle => magnitude_strictMono.monotone hle
  have habove' : q + 1 < p → magnitude (q + 1) < magnitude p :=
    fun hlt => magnitude_strictMono hlt
  rw [hnearer]
  unfold nearer
  dsimp only
  split_ifs
  · omega
  · omega
  · rcases Nat.mod_two_eq_zero_or_one q with hq | hq
    · rw [hq, Nat.add_zero]
      omega
    · rw [hq]
      omega

/-! ## Doubles -/

theorem payload_ofUnits (u : Int) : (ofUnits u).payload = roundPayload u.natAbs 1 :=
  payload_ofPayload (Nat.lt_of_le_of_lt (roundPayload_le _ _) (by decide)) _

theorem isNegative_ofUnits (u : Int) : (ofUnits u).isNegative = decide (u < 0) :=
  isNegative_ofPayload (Nat.lt_of_le_of_lt (roundPayload_le _ _) (by decide)) _

/-- On the side of its sign, the distance is that of the magnitudes. -/
theorem natAbs_units_sub {x : Binary64} {u : Int} (h : x.isNegative = decide (u < 0)) :
    (x.units - u).natAbs = ((magnitude x.payload : Int) - u.natAbs).natAbs := by
  rw [units, h]
  rcases lt_or_ge u 0 with hneg | hpos
  · rw [if_pos (decide_eq_true hneg)]
    omega
  · rw [if_neg (by simpa using hpos)]
    omega

/-- On the other side, the magnitudes add up. -/
theorem natAbs_units_sub_of_ne {x : Binary64} {u : Int}
    (h : x.isNegative ≠ decide (u < 0)) :
    (x.units - u).natAbs = magnitude x.payload + u.natAbs := by
  have hsign : x.isNegative = !decide (u < 0) := Bool.eq_not_of_ne h
  rw [units, hsign]
  rcases lt_or_ge u 0 with hneg | hpos
  · rw [decide_eq_true hneg, if_neg (by decide)]
    omega
  · rw [decide_eq_false (by omega), if_pos Bool.not_false]
    omega

/-- A whole number of units is rounded to the nearest double. A double of the other sign is
not nearer than zero. -/
theorem ofUnits_nearest {u : Int} (h : (ofUnits u).isFinite = true) (y : Binary64) :
    let error := ((ofUnits u).units - u).natAbs
    error ≤ (y.units - u).natAbs ∧ (error = (y.units - u).natAbs →
      y.units = (ofUnits u).units ∨ (ofUnits u).payload % 2 = 0) := by
  have hfinite : roundPayload u.natAbs 1 < infinityPayload := by
    simpa [isFinite, payload_ofUnits] using h
  have hnearest (p : Nat) := roundPayload_nearest hfinite p
  rw [← payload_ofUnits] at hnearest
  dsimp only at hnearest ⊢
  rw [natAbs_units_sub (isNegative_ofUnits u)]
  by_cases hsign : y.isNegative = decide (u < 0)
  · obtain ⟨hle, heq⟩ := hnearest y.payload
    rw [natAbs_units_sub hsign]
    refine ⟨hle, fun htie => (heq htie).imp_left fun hpayload => ?_⟩
    exact units_eq_iff.mpr ⟨hpayload, .inr (hsign.trans (isNegative_ofUnits u).symm)⟩
  · obtain ⟨hle, heq⟩ := hnearest 0
    have hzero : ((magnitude 0 : Int) - u.natAbs).natAbs = u.natAbs := by
      rw [magnitude_zero, Nat.cast_zero, zero_sub, Int.natAbs_neg, Int.natAbs_natCast]
    rw [hzero] at hle heq
    rw [natAbs_units_sub_of_ne hsign]
    refine ⟨hle.trans (Nat.le_add_left _ _), fun htie => ?_⟩
    have hy : y.payload = 0 := magnitude_eq_zero.mp (by omega)
    exact (heq (by omega)).imp_left fun hpayload =>
      units_eq_iff.mpr ⟨hy.trans hpayload, .inl hy⟩

/-- Up to 2^63 no whole number is rounded to an infinity. -/
theorem isFinite_ofInt_of_le {i : Int} (hi : i.natAbs ≤ 2 ^ 63) :
    (ofInt i).isFinite = true := by
  obtain ⟨p, hlow, -, hround⟩ := exists_between (i.natAbs * unitsPerOne)
  have hbound : 2 ^ 63 * unitsPerOne = magnitude (1085 * 2 ^ 52 + 2 ^ 52) := by
    obtain ⟨n, hn⟩ : ∃ n, 1074 = n := ⟨_, rfl⟩
    have hexponent : 63 + n = 52 + 1085 := by omega
    rw [magnitude_normal le_rfl (by decide), unitsPerOne_eq hn, ← Nat.pow_add,
      ← Nat.pow_add, hexponent]
  have hp : p ≤ 1085 * 2 ^ 52 + 2 ^ 52 := by
    rw [← magnitude_strictMono.le_iff_le, ← hbound]
    exact hlow.trans (Nat.mul_le_mul_right _ hi)
  have hnearer : nearer (i.natAbs * unitsPerOne) p ≤ p + 1 := by
    unfold nearer
    dsimp only
    split_ifs <;> omega
  rw [isFinite, decide_eq_true_iff, payload_ofInt, hround,
    show infinityPayload = 2047 * 2 ^ 52 from rfl]
  omega

/-- An integer of 64 bits is read as the nearest double. -/
theorem isNearest_ofInt {i : Int} (hi : i.natAbs ≤ 2 ^ 63) : (ofInt i).IsNearest i := by
  have hfinite := isFinite_ofInt_of_le hi
  have hone : (0 : ℚ) < unitsPerOne := Nat.cast_pos.mpr unitsPerOne_pos
  have herror (y : Binary64) : |y.value - i| =
      ((y.units - i * unitsPerOne).natAbs : ℚ) / unitsPerOne := by
    have hsub : y.value - i = ((y.units - i * unitsPerOne : Int) : ℚ) / unitsPerOne := by
      rw [value_eq_units, Int.cast_sub, Int.cast_mul, Int.cast_natCast, sub_div,
        mul_div_cancel_right₀ _ hone.ne']
    rw [hsub, abs_div, abs_of_pos hone, Nat.cast_natAbs, Int.cast_abs]
  refine ⟨hfinite, fun y _ => ?_, fun y _ heq => ?_⟩
  · rw [herror, herror, div_le_div_iff_of_pos_right hone, Nat.cast_le]
    exact (ofUnits_nearest hfinite y).1
  · rw [herror, herror, div_left_inj' hone.ne', Nat.cast_inj] at heq
    rw [value_eq_units, value_eq_units, div_left_inj' hone.ne', Int.cast_inj, ← payload_mod]
    rcases (ofUnits_nearest hfinite y).2 heq.symm with hunits | heven
    · exact .inl hunits
    · refine .inr ?_
      show (ofUnits (i * unitsPerOne)).payload % 2 ^ 52 % 2 = 0
      omega

end Binary64
end ScriptModel
