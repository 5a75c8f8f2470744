import AwkCore.Proofs.Binary64.Order
import AwkCore.Value

/-!
# The order of values

Two values that count as numbers are compared as numbers, and any others as texts. Either way what is
said of two values from one side is said from the other side too. Values that are all compared in one
way come in an order, so that only two numbers beside something else can stand in a circle.
-/
namespace AwkCore

/-- The order of bytes is that of core lists. -/
theorem Bytes.order_eq_compare (s t : Bytes) : Bytes.order s t = compare s t := by
  induction s generalizing t with
  | nil => cases t <;> rfl
  | cons a s ih =>
    cases t with
    | nil => rfl
    | cons b t =>
      have bytes : compare a b = compareOfLessAndEq a b := rfl
      rw [order, List.compare_cons_cons, bytes, compareOfLessAndEq, ih]
      by_cases below : a < b
      · rw [if_pos below, if_pos below, Ordering.lt_then]
      rw [if_neg below, if_neg below]
      by_cases same : a = b
      · rw [if_pos same, if_neg (same ▸ UInt8.lt_irrefl a), Ordering.eq_then]
      · have above : b < a := UInt8.lt_of_le_of_ne (UInt8.not_lt.mp below) (Ne.symm same)
        rw [if_neg same, if_pos above, Ordering.gt_then]

/-- What comes through something between is no later, and is equal only with what is between. -/
theorem compare_through {β : Type} [Ord β] [Std.TransOrd β] {a b c : β}
    (first : (compare a b).isLE) (second : (compare b c).isLE) :
    (compare a c).isLE ∧ (compare a c = .eq ↔ compare a b = .eq ∧ compare b c = .eq) := by
  refine ⟨Std.TransOrd.isLE_trans first second, fun same => ?_, fun both => ?_⟩
  · rcases Ordering.isLE_iff_eq_lt_or_eq_eq.mp first with lt | eq
    · rw [Std.TransCmp.lt_of_lt_of_isLE lt second] at same
      cases same
    · rcases Ordering.isLE_iff_eq_lt_or_eq_eq.mp second with lt | eq'
      · rw [Std.TransCmp.lt_of_isLE_of_lt first lt] at same
        cases same
      · exact ⟨eq, eq'⟩
  · exact Std.TransCmp.eq_trans both.1 both.2

namespace Value

variable {α : Type} {l m r : Value Bytes α}

/-- The number that a value holds, if it holds one. -/
def number? : Value Bytes α → Option Binary64
  | number n | numericString _ n => some n
  | _ => none

/-- A value that holds a NaN. -/
def isNaN (v : Value Bytes α) : Bool := v.number?.any Binary64.isNaN

theorem order_numbers (hl : l.comparesAsNumber = true) (hr : r.comparesAsNumber = true) :
    l.order r = l.toNumber.order r.toNumber := by
  rw [order, hl, hr, Bool.and_self, if_pos rfl]

theorem order_texts (other : l.comparesAsNumber = false ∨ r.comparesAsNumber = false) :
    l.order r = compare l.toText r.toText := by
  rw [order, Bool.and_eq_false_iff.mpr other, if_neg Bool.false_ne_true, Bytes.order_eq_compare]

theorem isNaN_toNumber {v : Value Bytes α} (compares : v.comparesAsNumber = true) :
    v.toNumber.isNaN = v.isNaN := by
  cases v with
  | uninitialized | number | numericString => rfl
  | _ => cases compares

/-- Numbers that are no NaN are compared through what they stand for. -/
theorem order_toRat (hl : l.comparesAsNumber = true) (hr : r.comparesAsNumber = true)
    (l_number : l.isNaN = false) (r_number : r.isNaN = false) :
    l.order r = compare l.toNumber.toRat r.toNumber.toRat := by
  rw [order_numbers hl hr, Binary64.order_eq_compare]
  · rwa [isNaN_toNumber hl]
  · rwa [isNaN_toNumber hr]

theorem order_swap (l r : Value Bytes α) : r.order l = (l.order r).swap := by
  by_cases numbers : l.comparesAsNumber = true ∧ r.comparesAsNumber = true
  · rw [order_numbers numbers.1 numbers.2, order_numbers numbers.2 numbers.1, Binary64.order_swap]
  · rw [not_and_or, Bool.not_eq_true, Bool.not_eq_true] at numbers
    rw [order_texts numbers, order_texts numbers.symm]
    exact Std.OrientedOrd.eq_swap

/-- Of three values that do not make exactly two numbers, any two are compared in the same way. -/
theorem compares_alike (count : [l, m, r].countP comparesAsNumber ≠ 2) :
    (l.comparesAsNumber = true ∧ m.comparesAsNumber = true ∧ r.comparesAsNumber = true) ∨
      (l.comparesAsNumber = false ∨ m.comparesAsNumber = false) ∧
      (m.comparesAsNumber = false ∨ r.comparesAsNumber = false) ∧
      (l.comparesAsNumber = false ∨ r.comparesAsNumber = false) := by
  simp only [List.countP_cons, List.countP_nil] at count
  revert count
  cases l.comparesAsNumber <;> cases m.comparesAsNumber <;> cases r.comparesAsNumber <;> decide

/-- The order of two values is the same from both sides, and a value is equal to itself. Of three values
without a NaN, of which not just two are compared as numbers, one that comes through another is no later
than it, and equal to it only if all three are equal. -/
theorem order_consistent (l m r : Value Bytes α) :
    r.order l = (l.order r).swap ∧ l.order l = .eq ∧
      (l.isNaN = false → m.isNaN = false → r.isNaN = false →
        [l, m, r].countP comparesAsNumber ≠ 2 → (l.order m).isLE → (m.order r).isLE →
          (l.order r).isLE ∧ (l.order r = .eq ↔ l.order m = .eq ∧ m.order r = .eq)) := by
  refine ⟨order_swap l r, ?_, fun hl hm hr count first second => ?_⟩
  · have mirrored := order_swap l l
    cases same : l.order l with
    | eq => rfl
    | lt | gt =>
      rw [same] at mirrored
      cases mirrored
  · rcases compares_alike count with ⟨nl, nm, nr⟩ | ⟨lm, mr, lr⟩
    · rw [order_toRat nl nm hl hm] at first ⊢
      rw [order_toRat nm nr hm hr] at second ⊢
      rw [order_toRat nl nr hl hr]
      exact compare_through first second
    · rw [order_texts lm] at first ⊢
      rw [order_texts mr] at second ⊢
      rw [order_texts lr]
      exact compare_through first second

/-- An array and a string beside a number: all are compared as texts, and an array has none. -/
theorem order_consistent_texts :
    let l : Value Bytes Unit := array ()
    let m : Value Bytes Unit := number (Binary64.ofNat 10)
    let r : Value Bytes Unit := string (ascii "9")
    l.order m = .lt ∧ m.order r = .lt ∧ (l.order r).isLE ∧ l.order r ≠ .eq := by
  intro l m r
  have first : l.order m = .lt := by decide +kernel
  have second : m.order r = .lt := by decide +kernel
  obtain ⟨through, same⟩ := (order_consistent l m r).2.2 (by decide) (by decide +kernel) (by decide)
    (by decide) (by rw [first]; rfl) (by rw [second]; rfl)
  refine ⟨first, second, through, fun equal => ?_⟩
  rw [same, first] at equal
  cases equal.1

/-- Two numbers and a string in a circle. -/
example :
    let number (n : ℕ) : Value Bytes Unit := .number (Binary64.ofNat n)
    (number 9).order (number 10) = .lt ∧ (number 10).order (string (ascii "5")) = .lt ∧
      (string (ascii "5")).order (number 9) = .lt := by decide +kernel

end Value

end AwkCore
