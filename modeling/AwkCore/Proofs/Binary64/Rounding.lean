import AwkCore.Binary64.Format
import AwkCore.Proofs.Binary64.Nearest

/-!
# Six significant digits

A positive number in six significant digits is the nearest multiple of the weight that its sixth digit
has, and the even one if two are as near. When this carries into the next power of ten, the sixth digit
gets the next weight as well; rounding to that weight from the start comes to the same number.
-/
namespace AwkCore

/-- The whole number nearest to a number, the even one of two. -/
structure RoundsTo (q : ℚ) (n : ℕ) : Prop where
  near : 2 * |q - n| ≤ 1
  even : 2 * |q - n| = 1 → Even n

namespace RoundsTo

variable {q : ℚ} {m n : ℕ}

theorem le_succ (hm : RoundsTo q m) (hn : RoundsTo q n) : n ≤ m + 1 := by
  have below := abs_le.mp (le_div_iff₀' two_pos |>.mpr hm.near)
  have above := abs_le.mp (le_div_iff₀' two_pos |>.mpr hn.near)
  have gap : (n : ℚ) ≤ m + 1 := by linarith
  exact_mod_cast gap

/-- Two neighbours are not both nearest: one of them is odd. -/
theorem not_succ (hn : RoundsTo q n) : ¬ RoundsTo q (n + 1) := by
  intro next
  have low := abs_le.mp (le_div_iff₀' two_pos |>.mpr hn.near)
  have high := abs_le.mp (le_div_iff₀' two_pos |>.mpr next.near)
  push_cast at high
  have middle : q = n + 1 / 2 := by linarith
  have even : Even n := hn.even (by rw [middle, add_sub_cancel_left]; norm_num)
  have odd : Even (n + 1) := next.even (by rw [middle]; push_cast; norm_num)
  exact Nat.not_even_iff_odd.mpr even.add_one odd

theorem unique (hm : RoundsTo q m) (hn : RoundsTo q n) : m = n := by
  have up := hm.le_succ hn
  have down := hn.le_succ hm
  rcases Nat.lt_trichotomy m n with lt | eq | gt
  · obtain rfl : n = m + 1 := Nat.le_antisymm up lt
    exact absurd hn hm.not_succ
  · exact eq
  · obtain rfl : m = n + 1 := Nat.le_antisymm down gt
    exact absurd hm hn.not_succ

/-- What is nearer than half is nearest. -/
theorem of_lt (near : 2 * |q - n| < 1) : RoundsTo q n := ⟨near.le, fun tie => absurd tie near.ne⟩

/-- Rounding does not cross a whole number. -/
theorem le_of_le (hn : RoundsTo q n) (low : m ≤ q) : m ≤ n := by
  have near := abs_le.mp (le_div_iff₀' two_pos |>.mpr hn.near)
  have gap : (m : ℚ) < n + 1 := by linarith
  exact Nat.le_of_lt_succ (by exact_mod_cast gap)

theorem le_of_lt (hn : RoundsTo q n) (high : q < m) : n ≤ m := by
  have near := abs_le.mp (le_div_iff₀' two_pos |>.mpr hn.near)
  have gap : (n : ℚ) < m + 1 := by linarith
  exact Nat.le_of_lt_succ (by exact_mod_cast gap)

end RoundsTo

theorem Binary64.roundDiv_roundsTo (num : ℕ) {den : ℕ} (pos : 0 < den) :
    RoundsTo (num / den) (roundDiv num den) := by
  have den_pos : (0 : ℚ) < den := Nat.cast_pos.mpr pos
  obtain ⟨k, at_k⟩ : ∃ k, num / den = k := ⟨_, rfl⟩
  obtain ⟨rest, at_rest⟩ : ∃ rest, num % den = rest := ⟨_, rfl⟩
  have lt : rest < den := at_rest ▸ Nat.mod_lt num pos
  have whole : (num / den : ℚ) = k + rest / den := by
    have split : (num : ℚ) = den * k + rest := by
      exact_mod_cast at_k ▸ at_rest ▸ (Nat.div_add_mod num den).symm
    rw [split]
    field_simp
  have below : |(num / den : ℚ) - k| = rest / den := by
    rw [whole, add_sub_cancel_left, abs_of_nonneg (by positivity)]
  have above : |(num / den : ℚ) - (k + 1 : ℕ)| = (den - rest : ℚ) / den := by
    have gap : (rest : ℚ) < den := by exact_mod_cast lt
    have diff : (num / den : ℚ) - (k + 1 : ℕ) = -((den - rest : ℚ) / den) := by
      rw [whole]
      push_cast
      field_simp
      ring
    rw [diff, abs_neg, abs_of_pos (div_pos (by linarith) den_pos)]
  rw [roundDiv, at_k, at_rest]
  rcases Nat.lt_trichotomy (2 * rest) den with less | equal | more
  · rw [if_pos less]
    refine .of_lt ?_
    have near : (2 * rest : ℚ) < den := by exact_mod_cast less
    rw [below, ← mul_div_assoc, div_lt_one den_pos]
    exact near
  · rw [if_neg equal.not_lt, if_neg equal.not_gt]
    have tie : (2 * rest : ℚ) = den := by exact_mod_cast equal
    rcases Nat.even_or_odd k with even | odd
    · rw [Nat.even_iff.mp even, Nat.add_zero]
      refine ⟨?_, fun _ => even⟩
      rw [below, ← mul_div_assoc, tie, div_self den_pos.ne']
    · rw [Nat.odd_iff.mp odd]
      refine ⟨?_, fun _ => odd.add_one⟩
      rw [above, ← mul_div_assoc, div_le_one den_pos]
      linarith
  · rw [if_neg more.not_gt, if_pos more]
    refine .of_lt ?_
    have near : (den : ℚ) < 2 * rest := by exact_mod_cast more
    rw [above, ← mul_div_assoc, div_lt_one den_pos]
    linarith

/-- A number rounded to six significant digits. -/
def IsSixDigits (q v : ℚ) : Prop :=
  ∃ (k : ℤ) (n : ℕ), 10 ^ k ≤ q ∧ q < 10 ^ (k + 1) ∧ RoundsTo (q / 10 ^ (k - 5)) n ∧
    v = n * 10 ^ (k - 5)

theorem digitCount_bounds {n : ℕ} (pos : 0 < n) :
    ∃ c, digitCount n = c + 1 ∧ 10 ^ c ≤ n ∧ n < 10 ^ (c + 1) := by
  fun_induction digitCount n with
  | case1 n lt => exact ⟨0, rfl, pos, by simpa using lt⟩
  | case2 n ge ih =>
    obtain ⟨c, count, low, high⟩ := ih (by omega)
    rw [Nat.le_div_iff_mul_le (by decide), ← pow_succ] at low
    rw [Nat.div_lt_iff_lt_mul (by decide), ← pow_succ] at high
    exact ⟨c + 1, by rw [count], low, high⟩

namespace Significant

variable {num den : ℕ}

/-- The number that six digits are. -/
def value (s : Significant) : ℚ := s.digits * 10 ^ (s.exponent - 5)

theorem magnitude_bounds (num_pos : 0 < num) (den_pos : 0 < den) :
    (10 : ℚ) ^ magnitude num den ≤ num / den ∧ (num / den : ℚ) < 10 ^ (magnitude num den + 1) := by
  have pos : (0 : ℚ) < den := Nat.cast_pos.mpr den_pos
  unfold magnitude
  split
  case isTrue large =>
    obtain ⟨c, count, low, high⟩ := digitCount_bounds (Nat.div_pos large den_pos)
    rw [Nat.le_div_iff_mul_le den_pos] at low
    rw [Nat.div_lt_iff_lt_mul den_pos] at high
    have exponent : ((digitCount (num / den) : ℤ) - 1) = (c : ℕ) := by omega
    have next : ((c : ℤ) + 1) = ((c + 1 : ℕ) : ℤ) := (Nat.cast_succ c).symm
    rw [exponent, next, zpow_natCast, zpow_natCast, le_div_iff₀ pos, div_lt_iff₀ pos]
    exact ⟨by exact_mod_cast low, by exact_mod_cast high⟩
  case isFalse small =>
    obtain ⟨c, count, low, high⟩ := digitCount_bounds (Nat.div_pos (by omega : num ≤ den - 1) num_pos)
    rw [Nat.le_div_iff_mul_le num_pos] at low
    rw [Nat.div_lt_iff_lt_mul num_pos] at high
    have next : (-((c + 1 : ℕ) : ℤ) + 1) = -(c : ℤ) := by push_cast; ring
    rw [count, next, zpow_neg, zpow_neg, zpow_natCast, zpow_natCast]
    constructor
    · have within : den ≤ 10 ^ (c + 1) * num := by omega
      rw [inv_le_comm₀ (by positivity) (by positivity), inv_div, div_le_iff₀ (by positivity)]
      exact_mod_cast within
    · have beyond : 10 ^ c * num < den := by omega
      rw [div_lt_iff₀ pos, inv_mul_eq_div, lt_div_iff₀' (by positivity)]
      exact_mod_cast beyond

theorem digitsAt_roundsTo (num : ℕ) (den_pos : 0 < den) (e : ℤ) :
    RoundsTo (num / den / 10 ^ (e - 5)) (digitsAt num den e) := by
  have places : ((precision : ℤ) - 1) - e = 5 - e := by rw [precision]; ring
  unfold digitsAt
  simp only [places, Nat.pow_eq]
  split
  case isTrue behind =>
    obtain ⟨p, at_p⟩ : ∃ p : ℕ, 5 - e = p := ⟨(5 - e).toNat, by omega⟩
    have weight : e - 5 = -p := by omega
    have scaled : (num / den / 10 ^ (e - 5) : ℚ) = (num * 10 ^ p : ℕ) / den := by
      rw [weight, zpow_neg, zpow_natCast, div_inv_eq_mul]
      push_cast
      ring
    rw [scaled, at_p, Int.toNat_natCast]
    exact Binary64.roundDiv_roundsTo _ den_pos
  case isFalse before =>
    obtain ⟨p, at_p⟩ : ∃ p : ℕ, e - 5 = p := ⟨(e - 5).toNat, by omega⟩
    have weight : -(5 - e) = p := by omega
    have scaled : (num / den / 10 ^ (e - 5) : ℚ) = num / (den * 10 ^ p : ℕ) := by
      rw [at_p, zpow_natCast, div_div]
      push_cast
      rfl
    rw [scaled, weight, Int.toNat_natCast]
    exact Binary64.roundDiv_roundsTo _ (by positivity)

theorem pow_mul_zpow (p : ℕ) (e : ℤ) : ((10 ^ p : ℕ) : ℚ) * 10 ^ e = 10 ^ (p + e) := by
  rw [zpow_add₀ (by norm_num), zpow_natCast]
  push_cast
  rfl

/-- A number of six digits is so many of the weight of its sixth digit. -/
theorem bounds_iff {q : ℚ} {e : ℤ} : (10 ^ e ≤ q ∧ q < 10 ^ (e + 1)) ↔
    ((10 ^ 5 : ℕ) : ℚ) ≤ q / 10 ^ (e - 5) ∧ q / 10 ^ (e - 5) < ((10 ^ 6 : ℕ) : ℚ) := by
  have pos : (0 : ℚ) < 10 ^ (e - 5) := zpow_pos (by norm_num) _
  have five : ((5 : ℕ) : ℤ) + (e - 5) = e := by push_cast; ring
  have six : ((6 : ℕ) : ℤ) + (e - 5) = e + 1 := by push_cast; ring
  rw [le_div_iff₀ pos, div_lt_iff₀ pos, pow_mul_zpow, pow_mul_zpow, five, six]

/-- How a rounded number comes about: six digits as they are, or a carry into the next power of ten. -/
inductive Carries (q : ℚ) (e : ℤ) : Significant → Prop
  | plain {n : ℕ} (rounds : RoundsTo (q / 10 ^ (e - 5)) n) (low : 10 ^ 5 ≤ n) (high : n < 10 ^ 6) :
    Carries q e ⟨n, e⟩
  | carried (rounds : RoundsTo (q / 10 ^ (e - 5)) (10 ^ 6)) : Carries q e ⟨10 ^ 5, e + 1⟩

variable {q : ℚ} {e : ℤ} {s : Significant}

theorem carries_round (num_pos : 0 < num) (den_pos : 0 < den) :
    Carries (num / den) (magnitude num den) (round num den) := by
  obtain ⟨below, above⟩ := bounds_iff.mp (magnitude_bounds num_pos den_pos)
  have rounds := digitsAt_roundsTo num den_pos (magnitude num den)
  have most := rounds.le_of_lt above
  by_cases carry : digitsAt num den (magnitude num den) = 10 ^ 6
  · have carried : round num den = ⟨10 ^ 5, magnitude num den + 1⟩ := if_pos carry
    rw [carry] at rounds
    rw [carried]
    exact .carried rounds
  · have plain : round num den = ⟨_, magnitude num den⟩ := if_neg carry
    rw [plain]
    exact .plain rounds (rounds.le_of_le below) (Nat.lt_of_le_of_ne most carry)

theorem Carries.digits_bounds (carries : Carries q e s) : 10 ^ 5 ≤ s.digits ∧ s.digits < 10 ^ 6 := by
  cases carries with
  | plain _ low high => exact ⟨low, high⟩
  | carried => exact ⟨le_rfl, Nat.pow_lt_pow_right (by decide) (by decide)⟩

theorem Carries.isSixDigits (carries : Carries q e s) (low : 10 ^ e ≤ q) (high : q < 10 ^ (e + 1)) :
    IsSixDigits q s.value := by
  cases carries with
  | @plain n rounds => exact ⟨e, n, low, high, rounds, rfl⟩
  | carried rounds =>
    refine ⟨e, 10 ^ 6, low, high, rounds, ?_⟩
    have weight : e + 1 - 5 = e - 5 + 1 := by ring
    rw [value, weight, zpow_add_one₀ (by norm_num)]
    push_cast
    ring

/-- The same digits come out of rounding to the weight that the sixth of them has. -/
theorem Carries.roundsTo (carries : Carries q e s) :
    RoundsTo (q / 10 ^ (s.exponent - 5)) s.digits := by
  cases carries with
  | plain rounds => exact rounds
  | carried rounds =>
    have weight : e + 1 - 5 = e - 5 + 1 := by ring
    have near := rounds.near
    rw [weight, zpow_add_one₀ (by norm_num), ← div_div]
    refine .of_lt ?_
    have tenth : q / 10 ^ (e - 5) / 10 - (10 ^ 5 : ℕ) = (q / 10 ^ (e - 5) - (10 ^ 6 : ℕ)) / 10 := by
      push_cast
      ring
    rw [tenth, abs_div, abs_of_pos (by norm_num : (0 : ℚ) < 10)]
    linarith

theorem Carries.value_bounds (carries : Carries q e s) :
    10 ^ s.exponent ≤ s.value ∧ s.value < 10 ^ (s.exponent + 1) := by
  obtain ⟨low, high⟩ := carries.digits_bounds
  have pos : (0 : ℚ) < 10 ^ (s.exponent - 5) := zpow_pos (by norm_num) _
  rw [bounds_iff, value, mul_div_cancel_right₀ _ pos.ne']
  exact ⟨by exact_mod_cast low, by exact_mod_cast high⟩

end Significant

end AwkCore
