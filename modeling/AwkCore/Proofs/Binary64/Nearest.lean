import Mathlib.Algebra.Order.Field.Power
import Mathlib.Algebra.Order.Field.Rat
import Mathlib.Data.Nat.Log
import Mathlib.Tactic.FieldSimp
import Mathlib.Tactic.Linarith
import Mathlib.Tactic.NormNum
import Mathlib.Tactic.Positivity
import Mathlib.Tactic.Ring
import AwkCore.Binary64.Decimal

/-!
# The double nearest to a number

Doubles in ascending order lie on a grid whose steps double from one binade to the next. Reading a
quotient or a decimal gives the double nearest to it, and of two that are equally near the one of
even rank. Infinity takes part as the power of two that follows the largest double.
-/
namespace AwkCore

namespace Binary64

/-- The number that a double stands for, without its sign. -/
def magnitude (x : Binary64) : ℚ := x.units / one

/-- A nonnegative double to which every other one is farther from a number, or as far if its rank is
even. -/
structure IsNearest (x : Binary64) (q : ℚ) : Prop where
  nonneg : x.negative = false
  number : x.rank ≤ infinityRank
  nearest (y : Binary64) (number : y.rank ≤ infinityRank) (other : y.rank ≠ x.rank) :
    |q - x.magnitude| < |q - y.magnitude| ∨
      (|q - x.magnitude| = |q - y.magnitude| ∧ Even x.rank)

def unitsAt (rank : ℕ) : ℕ :=
  (rank - (rank / binade - 1) * binade) * 2 ^ (rank / binade - 1)

theorem units_eq (x : Binary64) : x.units = unitsAt x.rank := rfl

variable {s m r : ℕ} {u q : ℚ} {x : Binary64}

theorem binade_eq : binade = 2 ^ 52 := rfl

theorem unitsAt_eq (le : m ≤ 2 * binade) (normal : s = 0 ∨ binade ≤ m) :
    unitsAt (s * binade + m) = m * 2 ^ s := by
  have pos : 0 < binade := by decide
  have quotient : (s * binade + m) / binade = s + m / binade := by
    rw [Nat.add_comm, Nat.add_mul_div_right m s pos, Nat.add_comm]
  unfold unitsAt
  rw [quotient]
  rcases Nat.lt_or_ge m binade with small | large
  · obtain rfl : s = 0 := normal.resolve_right (Nat.not_le_of_lt small)
    simp [Nat.div_eq_of_lt small]
  rcases Nat.eq_or_lt_of_le le with rfl | lt
  · have last : s + 2 * binade / binade - 1 = s + 1 := by
      rw [Nat.mul_div_cancel _ pos]
      rfl
    have left : s * binade + 2 * binade - (s + 1) * binade = binade := by
      rw [← Nat.add_mul, ← Nat.sub_mul, Nat.add_sub_add_left, Nat.one_mul]
    rw [last, left, pow_succ]
    ring
  · have one : m / binade = 1 := Nat.div_eq_of_lt_le (by omega) (by omega)
    rw [one, Nat.add_sub_cancel, Nat.add_sub_cancel_left]

/-- Every rank is so many steps into a binade. -/
theorem exists_steps (r : ℕ) :
    ∃ s m, r = s * binade + m ∧ m < 2 * binade ∧ (s = 0 ∨ binade ≤ m) := by
  refine ⟨r / binade - 1, r - (r / binade - 1) * binade, ?_⟩
  have whole := Nat.div_add_mod r binade
  have rest := Nat.mod_lt r (show 0 < binade by decide)
  rw [Nat.mul_comm] at whole
  cases quotient : r / binade with
  | zero =>
    rw [quotient] at whole
    omega
  | succ n =>
    rw [quotient, Nat.succ_mul] at whole
    simp only [Nat.succ_sub_one]
    omega

theorem unitsAt_strictMono : StrictMono unitsAt := by
  refine strictMono_nat_of_lt_succ fun r => ?_
  obtain ⟨s, m, rfl, lt, normal⟩ := exists_steps r
  rw [unitsAt_eq lt.le normal, Nat.add_assoc, unitsAt_eq lt (normal.imp_right Nat.le_succ_of_le),
    Nat.succ_mul]
  exact Nat.lt_add_of_pos_right (by positivity)

/-- The end of a step that a double is chosen for: the one that is nearer, or that of even rank. -/
inductive Chosen (u : ℚ) (r : ℕ) : ℕ → Prop
  | low (nearer : u - unitsAt r < unitsAt (r + 1) - u) : Chosen u r r
  | high (nearer : unitsAt (r + 1) - u < u - unitsAt r) : Chosen u r (r + 1)
  | tie {k : ℕ} (between : u - unitsAt r = unitsAt (r + 1) - u) (near : k = r ∨ k = r + 1)
      (even : Even k) : Chosen u r k

theorem Chosen.near {k : ℕ} (chosen : Chosen u r k) : k = r ∨ k = r + 1 := by
  cases chosen with
  | low => exact .inl rfl
  | high => exact .inr rfl
  | tie _ near => exact near

/-- Ranks beyond a step are farther from what is in it than its ends. -/
theorem Chosen.farther {k : ℕ} (chosen : Chosen u r k) (low : unitsAt r ≤ u)
    (high : u < unitsAt (r + 1)) {j : ℕ} (other : j ≠ k) :
    |u - unitsAt k| < |u - unitsAt j| ∨ (|u - unitsAt k| = |u - unitsAt j| ∧ Even k) := by
  have below : |u - unitsAt r| = u - unitsAt r := abs_of_nonneg (by linarith)
  have above : |u - unitsAt (r + 1)| = unitsAt (r + 1) - u := by
    rw [abs_of_neg (by linarith), neg_sub]
  have outer : (j < r ∧ u - unitsAt r < |u - unitsAt j|) ∨ j = r ∨ j = r + 1 ∨
      (r + 1 < j ∧ unitsAt (r + 1) - u < |u - unitsAt j|) := by
    rcases Nat.lt_trichotomy j r with lt | eq | gt
    · have strict : (unitsAt j : ℚ) < unitsAt r := by exact_mod_cast unitsAt_strictMono lt
      exact .inl ⟨lt, lt_of_lt_of_le (by linarith) (le_abs_self _)⟩
    · exact .inr (.inl eq)
    · rcases Nat.eq_or_lt_of_le gt with eq | gt
      · exact .inr (.inr (.inl eq.symm))
      · have strict : (unitsAt (r + 1) : ℚ) < unitsAt j := by exact_mod_cast unitsAt_strictMono gt
        exact .inr (.inr (.inr ⟨gt, lt_of_lt_of_le (by linarith) (neg_le_abs _)⟩))
  cases chosen with
  | low nearer =>
    left
    rw [below]
    rcases outer with ⟨_, far⟩ | eq | rfl | ⟨_, far⟩
    · exact far
    · exact absurd eq other
    · rwa [above]
    · exact nearer.trans far
  | high nearer =>
    left
    rw [above]
    rcases outer with ⟨_, far⟩ | rfl | eq | ⟨_, far⟩
    · exact nearer.trans far
    · rwa [below]
    · exact absurd eq other
    · exact far
  | @tie k between near even =>
    have here : |u - unitsAt k| = u - unitsAt r := by
      rcases near with rfl | rfl
      · exact below
      · rw [above, between]
    rw [here]
    rcases outer with ⟨_, far⟩ | rfl | rfl | ⟨_, far⟩
    · exact .inl far
    · exact .inr ⟨below.symm, even⟩
    · exact .inr ⟨by rw [above, between], even⟩
    · exact .inl (between.trans_lt far)

theorem one_pos : 0 < one := by
  decide +kernel

theorem abs_sub_magnitude (x : Binary64) (q : ℚ) :
    |q - x.magnitude| = |q * one - unitsAt x.rank| / one := by
  have pos : (0 : ℚ) < one := Nat.cast_pos.mpr one_pos
  rw [magnitude, units_eq, ← abs_of_pos pos, ← abs_div, abs_of_pos pos, sub_div,
    mul_div_cancel_right₀ q pos.ne']

/-- Infinity is the nearest double to all that lies beyond it. -/
theorem IsNearest.of_beyond (nonneg : x.negative = false) (rank : x.rank = infinityRank)
    (beyond : unitsAt infinityRank ≤ q * one) : x.IsNearest q := by
  constructor
  case nonneg => exact nonneg
  case number => exact rank.le
  case nearest =>
    intro y number other
    rw [rank] at other
    have below : (unitsAt y.rank : ℚ) < unitsAt infinityRank := by
      exact_mod_cast unitsAt_strictMono (Nat.lt_of_le_of_ne number other)
    left
    rw [abs_sub_magnitude, abs_sub_magnitude, rank,
      div_lt_div_iff_of_pos_right (Nat.cast_pos.mpr one_pos), abs_of_nonneg (by linarith),
      abs_of_nonneg (by linarith)]
    linarith

/-- The chosen end of a step is the nearest double, if infinity is taken for all beyond it. -/
theorem IsNearest.of_chosen {k : ℕ} (nonneg : x.negative = false) (low : unitsAt r ≤ q * one)
    (high : q * one < unitsAt (r + 1)) (chosen : Chosen (q * one) r k)
    (rank : x.rank = min k infinityRank) : x.IsNearest q := by
  have pos : (0 : ℚ) < one := Nat.cast_pos.mpr one_pos
  rcases Nat.lt_or_ge r infinityRank with inside | beyond
  · have same : x.rank = k := by
      rw [rank, Nat.min_eq_left]
      rcases chosen.near with rfl | rfl
      · exact inside.le
      · exact inside
    refine ⟨nonneg, rank ▸ Nat.min_le_right _ _, fun y _ other => ?_⟩
    rw [abs_sub_magnitude, abs_sub_magnitude, div_lt_div_iff_of_pos_right pos,
      div_left_inj' pos.ne']
    rw [same] at other ⊢
    exact chosen.farther low high other
  · have same : x.rank = infinityRank := by
      rw [rank, Nat.min_eq_right]
      rcases chosen.near with rfl | rfl
      · exact beyond
      · exact Nat.le_succ_of_le beyond
    have reached : (unitsAt infinityRank : ℚ) ≤ unitsAt r := by
      exact_mod_cast unitsAt_strictMono.monotone beyond
    exact .of_beyond nonneg same (reached.trans low)

/-- Rounding a quotient of steps chooses the nearer end of the step that it is in. -/
theorem chosen_roundDiv {a den w b : ℕ} (den_pos : 0 < den) (w_pos : 0 < w) (even : Even b)
    (low : unitsAt (b + a / (den * w)) = a / (den * w) * w)
    (high : unitsAt (b + a / (den * w) + 1) = (a / (den * w) + 1) * w) :
    unitsAt (b + a / (den * w)) ≤ (a / den : ℚ) ∧ (a / den : ℚ) < unitsAt (b + a / (den * w) + 1) ∧
      Chosen (a / den) (b + a / (den * w)) (b + roundDiv a (den * w)) := by
  have step_pos : 0 < den * w := Nat.mul_pos den_pos w_pos
  have pos : (0 : ℚ) < den := by exact_mod_cast den_pos
  obtain ⟨k, at_k⟩ : ∃ k, a / (den * w) = k := ⟨_, rfl⟩
  obtain ⟨rest, at_rest⟩ : ∃ rest, a % (den * w) = rest := ⟨_, rfl⟩
  have lt : rest < den * w := at_rest ▸ Nat.mod_lt a step_pos
  have whole : (a / den : ℚ) = k * w + rest / den := by
    have split : (a : ℚ) = den * w * k + rest := by
      exact_mod_cast at_k ▸ at_rest ▸ (Nat.div_add_mod a (den * w)).symm
    rw [split]
    field_simp
  rw [at_k] at low high ⊢
  rw [roundDiv, at_k, at_rest]
  have below : (a / den : ℚ) - unitsAt (b + k) = rest / den := by
    rw [low, whole]
    push_cast
    ring
  have above : unitsAt (b + k + 1) - (a / den : ℚ) = (den * w - rest : ℚ) / den := by
    rw [high, whole]
    push_cast
    field_simp
    ring
  refine ⟨?_, ?_, ?_⟩
  · rw [← sub_nonneg, below]
    positivity
  · rw [← sub_pos, above]
    have gap : (rest : ℚ) < den * w := by exact_mod_cast lt
    exact div_pos (by linarith) pos
  · rcases Nat.lt_trichotomy (2 * rest) (den * w) with less | equal | more
    · rw [if_pos less]
      refine .low ?_
      rw [below, above, div_lt_div_iff_of_pos_right pos]
      have near : (2 * rest : ℚ) < den * w := by exact_mod_cast less
      linarith
    · rw [if_neg equal.not_lt, if_neg equal.not_gt]
      refine .tie ?_ ?_ ?_
      · rw [below, above]
        have near : (2 * rest : ℚ) = den * w := by exact_mod_cast equal
        rw [← near]
        ring
      · have bit := Nat.mod_lt k two_pos
        omega
      · refine even.add ?_
        rcases Nat.even_or_odd k with even | odd
        · rwa [Nat.even_iff.mp even]
        · rw [Nat.odd_iff.mp odd]
          exact odd.add_one
    · rw [if_neg more.not_gt, if_pos more]
      refine .high ?_
      rw [below, above, div_lt_div_iff_of_pos_right pos]
      have near : (den * w : ℚ) < 2 * rest := by exact_mod_cast more
      linarith

/-- A quotient is read as the nearest double. -/
theorem isNearest_nearest (num : ℕ) {den : ℕ} (pos : 0 < den) :
    (nearest num den).IsNearest (num / den) := by
  obtain ⟨scaled, at_scaled⟩ : ∃ n, num * one = n := ⟨_, rfl⟩
  obtain ⟨s, at_s⟩ : ∃ s, Nat.log2 (scaled / den) - 52 = s := ⟨_, rfl⟩
  have quotient : scaled / (den * 2 ^ s) = scaled / den / 2 ^ s :=
    (Nat.div_div_eq_div_mul _ _ _).symm
  have lt : scaled / (den * 2 ^ s) < 2 * binade := by
    rw [quotient, Nat.div_lt_iff_lt_mul (by positivity)]
    refine Nat.lt_log2_self.trans_le ?_
    rw [binade_eq, ← pow_succ', ← pow_add]
    exact Nat.pow_le_pow_right (by decide) (by omega)
  have normal : s = 0 ∨ binade ≤ scaled / (den * 2 ^ s) := by
    rcases Nat.eq_zero_or_pos s with zero | pos
    · exact .inl zero
    · right
      have log : Nat.log2 (scaled / den) = 52 + s := by omega
      have nonzero : scaled / den ≠ 0 := by
        rintro zero
        rw [zero, Nat.log2_zero] at log
        omega
      have low := Nat.log2_self_le nonzero
      rw [log, pow_add] at low
      rwa [quotient, Nat.le_div_iff_mul_le (by positivity), binade_eq]
  have even : Even (s * binade) := Even.mul_left (by decide) s
  have after : unitsAt (s * binade + scaled / (den * 2 ^ s) + 1) =
      (scaled / (den * 2 ^ s) + 1) * 2 ^ s := by
    rw [Nat.add_assoc]
    exact unitsAt_eq lt (normal.imp_right Nat.le_succ_of_le)
  obtain ⟨low, high, chosen⟩ :=
    chosen_roundDiv pos (Nat.two_pow_pos s) even (unitsAt_eq lt.le normal) after
  have whole : (scaled / den : ℚ) = num / den * one := by
    rw [← at_scaled, Nat.cast_mul, div_mul_eq_mul_div]
  rw [whole] at low high chosen
  refine IsNearest.of_chosen rfl low high chosen ?_
  simp only [nearest, at_scaled, at_s, Nat.pow_eq]

theorem magnitude_lt {y : Binary64} (lt : x.rank < y.rank) : x.magnitude < y.magnitude := by
  rw [magnitude, magnitude, units_eq, units_eq,
    div_lt_div_iff_of_pos_right (Nat.cast_pos.mpr one_pos)]
  exact_mod_cast unitsAt_strictMono lt

/-- Of two nearest doubles neither is above the other: both ranks would be even, and the doubles
between them nearer. -/
theorem IsNearest.rank_le {y : Binary64} (hx : x.IsNearest q) (hy : y.IsNearest q) :
    y.rank ≤ x.rank := by
  by_contra above
  have lt : x.rank < y.rank := Nat.lt_of_not_le above
  obtain ⟨same, x_even, y_even⟩ : |q - x.magnitude| = |q - y.magnitude| ∧ Even x.rank ∧
      Even y.rank := by
    rcases hx.nearest y hy.number lt.ne' with nearer | ⟨same, x_even⟩
    · rcases hy.nearest x hx.number lt.ne with nearer' | ⟨same, _⟩
      · exact absurd nearer nearer'.not_gt
      · exact absurd nearer same.not_gt
    · rcases hy.nearest x hx.number lt.ne with nearer | ⟨_, y_even⟩
      · exact absurd nearer same.not_gt
      · exact ⟨same, x_even, y_even⟩
  have gap : x.rank + 1 < y.rank := by
    refine Nat.lt_of_le_of_ne lt fun next => ?_
    rw [← next, Nat.even_add_one] at y_even
    exact y_even x_even
  let z : Binary64 := ⟨false, x.rank + 1, gap.le.trans y.rank_le⟩
  have low : x.magnitude < z.magnitude := magnitude_lt (Nat.lt_succ_self _)
  have high : z.magnitude < y.magnitude := magnitude_lt gap
  have middle : q - x.magnitude = y.magnitude - q := by
    rcases abs_eq_abs.mp same with equal | opposite
    · linarith
    · linarith
  have inside : |q - z.magnitude| < |q - x.magnitude| := by
    rw [abs_of_pos (by linarith : 0 < q - x.magnitude), abs_lt]
    constructor <;> linarith
  rcases hx.nearest z (gap.le.trans hy.number) (Nat.succ_ne_self _) with nearer | ⟨same', _⟩
  · exact inside.not_gt nearer
  · exact inside.ne' same'

/-- Only one double is the nearest. -/
theorem IsNearest.unique {y : Binary64} (hx : x.IsNearest q) (hy : y.IsNearest q) : x = y := by
  have rank := Nat.le_antisymm (hy.rank_le hx) (hx.rank_le hy)
  have sign := hx.nonneg.trans hy.nonneg.symm
  cases x
  cases y
  cases rank
  cases sign
  rfl

theorem unitsAt_zero : unitsAt 0 = 0 := by decide

theorem unitsAt_one : unitsAt 1 = 1 := by decide

/-- Zero is the nearest double to what is below half of the least one. -/
theorem isNearest_zero (nonneg : 0 ≤ q) (small : 2 * (q * one) < 1) : zero.IsNearest q := by
  have low : (unitsAt 0 : ℚ) = 0 := by rw [unitsAt_zero, Nat.cast_zero]
  have high : (unitsAt (0 + 1) : ℚ) = 1 := by rw [Nat.zero_add, unitsAt_one, Nat.cast_one]
  have units : 0 ≤ q * one := mul_nonneg nonneg (Nat.cast_nonneg _)
  refine IsNearest.of_chosen rfl (low.trans_le units) ?_ (.low ?_) rfl
  · rw [high]
    linarith
  · rw [low, high]
    linarith

end Binary64

namespace Decimal

/-- The number that a decimal is. -/
def toRat (d : Decimal) : ℚ := d.mantissa * 10 ^ d.exponent

variable {d : Decimal}

theorem le_mantissa (nonzero : d.mantissa ≠ 0) :
    10 ^ (Nat.log2 d.mantissa * 3 / 10) ≤ d.mantissa := by
  obtain ⟨n, at_n⟩ : ∃ n, Nat.log2 d.mantissa * 3 / 10 = n := ⟨_, rfl⟩
  have bits : 10 * n ≤ Nat.log2 d.mantissa * 3 := at_n ▸ Nat.mul_div_le _ _
  have cubes : (10 ^ n) ^ 3 ≤ (2 ^ Nat.log2 d.mantissa) ^ 3 := by
    calc (10 ^ n) ^ 3 = (10 ^ 3) ^ n := pow_right_comm _ _ _
      _ ≤ (2 ^ 10) ^ n := Nat.pow_le_pow_left (by decide) n
      _ = 2 ^ (10 * n) := (pow_mul _ _ _).symm
      _ ≤ 2 ^ (Nat.log2 d.mantissa * 3) := Nat.pow_le_pow_right two_pos bits
      _ = (2 ^ Nat.log2 d.mantissa) ^ 3 := pow_mul _ _ _
  rw [at_n]
  exact ((Nat.pow_le_pow_iff_left three_ne_zero).mp cubes).trans (Nat.log2_self_le nonzero)

theorem mantissa_lt (d : Decimal) : d.mantissa < 10 ^ (Nat.log2 d.mantissa / 3 + 1) := by
  calc d.mantissa < 2 ^ (Nat.log2 d.mantissa + 1) := Nat.lt_log2_self
    _ ≤ 2 ^ (3 * (Nat.log2 d.mantissa / 3 + 1)) := Nat.pow_le_pow_right two_pos (by omega)
    _ = (2 ^ 3) ^ (Nat.log2 d.mantissa / 3 + 1) := pow_mul _ _ _
    _ ≤ 10 ^ (Nat.log2 d.mantissa / 3 + 1) := Nat.pow_le_pow_left (by decide) _

theorem pow_le_toRat (nonzero : d.mantissa ≠ 0) {k : ℕ} (low : k ≤ d.lowMagnitude) :
    (10 : ℚ) ^ k ≤ d.toRat := by
  calc (10 : ℚ) ^ k = 10 ^ (k : ℤ) := (zpow_natCast _ _).symm
    _ ≤ 10 ^ d.lowMagnitude := zpow_le_zpow_right₀ (by norm_num) low
    _ = 10 ^ (Nat.log2 d.mantissa * 3 / 10) * 10 ^ d.exponent := by
      rw [lowMagnitude, zpow_add₀ (by norm_num), zpow_natCast]
    _ ≤ d.toRat := by
      refine mul_le_mul_of_nonneg_right ?_ (zpow_pos (by norm_num) _).le
      exact_mod_cast le_mantissa nonzero

theorem toRat_lt {k : ℕ} (high : d.highMagnitude ≤ -k) : d.toRat * 10 ^ k < 1 := by
  have power_pos : (0 : ℚ) < 10 ^ (d.exponent + k) := zpow_pos (by norm_num) _
  calc d.toRat * 10 ^ k = d.mantissa * 10 ^ (d.exponent + k) := by
        rw [toRat, mul_assoc, zpow_add₀ (by norm_num), zpow_natCast]
    _ < 10 ^ (Nat.log2 d.mantissa / 3 + 1) * 10 ^ (d.exponent + k) := by
      refine mul_lt_mul_of_pos_right ?_ power_pos
      exact_mod_cast mantissa_lt d
    _ = 10 ^ (d.highMagnitude + k) := by
      rw [← zpow_natCast, ← zpow_add₀ (by norm_num), highMagnitude, add_assoc]
    _ ≤ 1 := zpow_le_one_of_nonpos₀ (by norm_num) (by omega)

/-- What counts as too large lies beyond infinity. -/
theorem unitsAt_infinityRank_le :
    Binary64.unitsAt infinityRank ≤ 10 ^ tooLarge.toNat * Binary64.one := by
  decide +kernel

/-- What counts as too small is below half of the least double. -/
theorem two_mul_one_le : 2 * Binary64.one ≤ 10 ^ (-tooSmall).toNat := by
  decide +kernel

/-- A decimal is read as the nearest double. -/
theorem isNearest_nearest (d : Decimal) : d.nearest.IsNearest d.toRat := by
  have nonneg : 0 ≤ d.toRat := mul_nonneg (Nat.cast_nonneg _) (zpow_pos (by norm_num) _).le
  unfold nearest
  split
  case isTrue zero =>
    refine Binary64.isNearest_zero nonneg ?_
    rw [toRat, zero, Nat.cast_zero, zero_mul, zero_mul, mul_zero]
    exact zero_lt_one
  case isFalse nonzero =>
  split
  case isTrue large =>
    have bound : (Binary64.unitsAt infinityRank : ℚ) ≤ 10 ^ tooLarge.toNat * Binary64.one := by
      exact_mod_cast unitsAt_infinityRank_le
    refine .of_beyond rfl rfl (bound.trans ?_)
    exact mul_le_mul_of_nonneg_right (pow_le_toRat nonzero large) (Nat.cast_nonneg _)
  case isFalse =>
  split
  case isTrue small =>
    refine Binary64.isNearest_zero nonneg ?_
    have bound : (2 * Binary64.one : ℚ) ≤ 10 ^ (-tooSmall).toNat := by
      exact_mod_cast two_mul_one_le
    calc 2 * (d.toRat * Binary64.one) = d.toRat * (2 * Binary64.one) := by ring
      _ ≤ d.toRat * 10 ^ (-tooSmall).toNat := mul_le_mul_of_nonneg_left bound nonneg
      _ < 1 := toRat_lt small
  case isFalse =>
  split
  case isTrue negative =>
    obtain ⟨k, exponent⟩ : ∃ k : ℕ, d.exponent = -k := ⟨d.exponent.natAbs, by omega⟩
    have number : d.toRat = d.mantissa / (10 ^ k : ℕ) := by
      rw [toRat, exponent, zpow_neg, zpow_natCast, div_eq_mul_inv]
      push_cast
      rfl
    rw [number, exponent, neg_neg, Int.toNat_natCast]
    exact Binary64.isNearest_nearest _ (Nat.pow_pos (by decide))
  case isFalse whole =>
    obtain ⟨k, exponent⟩ : ∃ k : ℕ, d.exponent = k := ⟨d.exponent.toNat, by omega⟩
    have number : d.toRat = (d.mantissa * 10 ^ k : ℕ) / (1 : ℕ) := by
      rw [toRat, exponent, zpow_natCast]
      push_cast
      rw [div_one]
    rw [number, exponent, Int.toNat_natCast]
    exact Binary64.isNearest_nearest _ one_pos

end Decimal

end AwkCore
