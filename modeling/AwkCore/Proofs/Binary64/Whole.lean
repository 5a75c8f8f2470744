import AwkCore.Proofs.Binary64.Order

/-!
# Whole numbers as doubles

A whole number of at most 53 binary digits is a double, so that reading it gives the number itself.
-/
namespace AwkCore.Binary64

variable {x : Binary64} {n : ℕ} {k : ℤ}

theorem one_eq : one = 2 ^ 1074 := by decide +kernel

/-- A double that is the number is the nearest to it. -/
theorem IsNearest.of_magnitude {q : ℚ} (nonneg : x.negative = false) (number : x.rank ≤ infinityRank)
    (same : x.magnitude = q) : x.IsNearest q := by
  refine ⟨nonneg, number, fun y _ other => .inl ?_⟩
  rw [same, sub_self, abs_zero, abs_pos, ← same, sub_ne_zero]
  rcases Nat.lt_or_gt_of_ne other with below | above
  · exact (magnitude_lt below).ne'
  · exact (magnitude_lt above).ne

/-- The rank of a whole number, whose leading binary digit is moved to the front of the fraction. -/
theorem exists_magnitude (small : n < 2 ^ 53) :
    ∃ x : Binary64, x.negative = false ∧ x.rank ≤ infinityRank ∧ x.magnitude = n := by
  rcases Nat.eq_zero_or_pos n with rfl | pos
  · exact ⟨zero, rfl, by decide, (magnitude_eq_zero rfl).trans Nat.cast_zero.symm⟩
  obtain ⟨l, at_l⟩ : ∃ l, Nat.log2 n = l := ⟨_, rfl⟩
  have short : l ≤ 52 := by
    have bits := (Nat.log2_lt pos.ne').mpr small
    omega
  have low : binade ≤ n * 2 ^ (52 - l) := by
    calc binade = 2 ^ l * 2 ^ (52 - l) := by rw [← pow_add, binade_eq]; congr 1; omega
      _ ≤ n * 2 ^ (52 - l) := Nat.mul_le_mul_right _ (at_l ▸ Nat.log2_self_le pos.ne')
  have high : n * 2 ^ (52 - l) < 2 * binade := by
    calc n * 2 ^ (52 - l) < 2 ^ (l + 1) * 2 ^ (52 - l) :=
          Nat.mul_lt_mul_of_pos_right (at_l ▸ Nat.lt_log2_self) (by positivity)
      _ = 2 * binade := by rw [← pow_add, binade_eq, ← pow_succ']; congr 1; omega
  have bound : (1022 + l) * binade + n * 2 ^ (52 - l) ≤ infinityRank := by
    have top : infinityRank = 2047 * binade := by decide +kernel
    have scale := Nat.mul_le_mul_right binade (show 1022 + l ≤ 1074 by omega)
    omega
  refine ⟨⟨false, _, bound.trans (Nat.le_succ _)⟩, rfl, bound, ?_⟩
  have units : unitsAt ((1022 + l) * binade + n * 2 ^ (52 - l)) = n * one := by
    have exponent : 52 - l + (1022 + l) = 1074 := by omega
    rw [unitsAt_eq high.le (.inr low), mul_assoc, ← pow_add, exponent, one_eq]
  rw [magnitude, units_eq, units, Nat.cast_mul, mul_div_cancel_right₀ _ (Nat.cast_pos.mpr one_pos).ne']

theorem magnitude_ofNat (small : n < 2 ^ 53) : (ofNat n).magnitude = n := by
  obtain ⟨x, nonneg, number, same⟩ := exists_magnitude small
  have nearest : (ofNat n).IsNearest n := by
    have quotient := isNearest_nearest n Nat.one_pos
    rwa [Nat.cast_one, div_one] at quotient
  rw [nearest.unique (.of_magnitude nonneg number same), same]

theorem toRat_ofNat (small : n < 2 ^ 53) : (ofNat n).toRat = n := by
  have nonneg : (ofNat n).negative = false := rfl
  rw [toRat, nonneg, if_neg Bool.false_ne_true, magnitude_ofNat small]

theorem toRat_negate (x : Binary64) : x.negate.toRat = -x.toRat := by
  have magnitude : x.negate.magnitude = x.magnitude := rfl
  have sign : x.negate.negative = !x.negative := rfl
  rw [toRat, toRat, magnitude, sign]
  cases x.negative with
  | false => rfl
  | true => exact (neg_neg _).symm

theorem toRat_ofInt (small : |k| < 2 ^ 53) : (ofInt k).toRat = k := by
  have size : k.natAbs < 2 ^ 53 := by
    rw [Int.abs_eq_natAbs] at small
    exact_mod_cast small
  unfold ofInt
  split
  case isTrue negative =>
    have number : (k : ℚ) = -(k.natAbs : ℚ) := by
      rw [Nat.cast_natAbs, abs_of_neg negative, Int.cast_neg, neg_neg]
    rw [toRat_negate, toRat_ofNat size, number]
  case isFalse nonneg =>
    have number : (k : ℚ) = (k.natAbs : ℚ) := by
      rw [Nat.cast_natAbs, abs_of_nonneg (Int.not_lt.mp nonneg)]
    rw [toRat_ofNat size, number]

theorem unitsAt_infinityRank_ge : 2 ^ 53 * one ≤ unitsAt infinityRank := by decide +kernel

/-- What is no finite double lies beyond all whole numbers of that size. -/
theorem finite_of_whole (whole : x.toRat = k) (small : |k| < 2 ^ 53) : x.rank < infinityRank := by
  by_contra beyond
  have reached := unitsAt_infinityRank_ge.trans
    (unitsAt_strictMono.monotone (Nat.not_lt.mp beyond))
  have large : (2 ^ 53 : ℚ) ≤ x.magnitude := by
    rw [magnitude, units_eq, le_div_iff₀ (Nat.cast_pos.mpr one_pos)]
    exact_mod_cast reached
  rw [← abs_toRat, whole] at large
  have within : (|k| : ℚ) < 2 ^ 53 := by exact_mod_cast small
  linarith

end AwkCore.Binary64
