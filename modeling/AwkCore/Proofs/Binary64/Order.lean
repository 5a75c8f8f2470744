import Mathlib.Data.Int.ConditionallyCompleteOrder
import Mathlib.Order.Compare
import AwkCore.Proofs.Binary64.Nearest

/-!
# The order of doubles

Doubles are told apart by their places on the number line. Their order is that of the numbers that they
stand for, in which infinity counts as the power of two that follows the largest double.
-/
namespace AwkCore.Binary64

variable {x y : Binary64}

/-- The number that a double stands for. -/
def toRat (x : Binary64) : ℚ := if x.negative then -x.magnitude else x.magnitude

theorem abs_toRat (x : Binary64) : |x.toRat| = x.magnitude := by
  have nonneg : 0 ≤ x.magnitude := by
    rw [magnitude]
    positivity
  rw [toRat]
  split
  · rw [abs_neg, abs_of_nonneg nonneg]
  · exact abs_of_nonneg nonneg

theorem magnitude_eq_zero (none : x.units = 0) : x.magnitude = 0 := by
  rw [magnitude, none, Nat.cast_zero, zero_div]

/-- The number at a place of the number line. -/
def numberAt (place : ℤ) : ℚ := (if place < 0 then -1 else 1) * (unitsAt place.natAbs / one)

theorem numberAt_natCast (rank : ℕ) : numberAt rank = unitsAt rank / one := by
  rw [numberAt, if_neg (by omega), one_mul, Int.natAbs_natCast]

theorem numberAt_neg (rank : ℕ) : numberAt (-rank) = -(unitsAt rank / one) := by
  cases rank with
  | zero => rw [Int.natCast_zero, neg_zero, numberAt, unitsAt_zero, Int.natAbs_zero, unitsAt_zero,
      Nat.cast_zero, zero_div, mul_zero, neg_zero]
  | succ rank => rw [numberAt, if_pos (by omega), Int.natAbs_neg, Int.natAbs_natCast, neg_one_mul]

theorem numberAt_strictMono : StrictMono numberAt := by
  have scaled {a b : ℕ} (lt : a < b) : (unitsAt a / one : ℚ) < unitsAt b / one := by
    rw [div_lt_div_iff_of_pos_right (Nat.cast_pos.mpr one_pos)]
    exact_mod_cast unitsAt_strictMono lt
  have nonneg (a : ℕ) : (0 : ℚ) ≤ unitsAt a / one := by positivity
  intro a b lt
  obtain ⟨m, rfl | rfl⟩ := a.eq_nat_or_neg <;> obtain ⟨n, rfl | rfl⟩ := b.eq_nat_or_neg
  · rw [numberAt_natCast, numberAt_natCast]
    exact scaled (by omega)
  · omega
  · rw [numberAt_natCast, numberAt_neg]
    rcases Nat.eq_zero_or_pos m with rfl | pos
    · rw [unitsAt_zero, Nat.cast_zero, zero_div, neg_zero]
      have above := scaled (a := 0) (b := n) (by omega)
      rwa [unitsAt_zero, Nat.cast_zero, zero_div] at above
    · have below := scaled (a := 0) (b := m) pos
      rw [unitsAt_zero, Nat.cast_zero, zero_div] at below
      linarith [nonneg n]
  · rw [numberAt_neg, numberAt_neg, neg_lt_neg_iff]
    exact scaled (by omega)

theorem position?_eq (number : x.isNaN = false) :
    ∃ place, x.position? = some place ∧ x.toRat = numberAt place := by
  rw [position?, number, toRat]
  cases x.negative with
  | false => exact ⟨x.rank, rfl, (numberAt_natCast x.rank).symm⟩
  | true => exact ⟨-x.rank, rfl, (numberAt_neg x.rank).symm⟩

/-- Doubles that are no NaN come in the order of the numbers that they stand for. -/
theorem order_eq_compare (hx : x.isNaN = false) (hy : y.isNaN = false) :
    x.order y = compare x.toRat y.toRat := by
  obtain ⟨a, at_x, x_eq⟩ := position?_eq hx
  obtain ⟨b, at_y, y_eq⟩ := position?_eq hy
  have places : x.order y = compare a b := by rw [order, at_x, at_y]
  rw [places, x_eq, y_eq, ← cmp_eq_compare, ← cmp_eq_compare, numberAt_strictMono.cmp_map_eq]

theorem order_of_isNaN (nan : x.isNaN = true ∨ y.isNaN = true) : x.order y = .eq := by
  unfold order
  split
  · rename_i a b at_x at_y
    rcases nan with nan | nan
    · rw [position?, nan] at at_x
      cases at_x
    · rw [position?, nan] at at_y
      cases at_y
  · rfl

theorem order_swap (x y : Binary64) : y.order x = (x.order y).swap := by
  cases hx : x.isNaN with
  | true => rw [order_of_isNaN (.inl hx), order_of_isNaN (.inr hx), Ordering.swap_eq]
  | false =>
    cases hy : y.isNaN with
    | true => rw [order_of_isNaN (.inl hy), order_of_isNaN (.inr hy), Ordering.swap_eq]
    | false =>
      rw [order_eq_compare hx hy, order_eq_compare hy hx]
      exact Std.OrientedOrd.eq_swap

end AwkCore.Binary64
