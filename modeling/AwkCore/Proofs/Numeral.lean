import Mathlib.Order.Basic
import AwkCore.Numeral

/-!
# Numerals in a text that is cut short

A reader takes the longest numeral that a text begins with. It takes the same one when the text is
cut behind that numeral, and a shorter one or none when the cut goes through it.
-/
namespace AwkCore.Numeral

variable {s : Bytes} {k : ℕ}

theorem digits_take (s : Bytes) (k : ℕ) : digits (s.take k) = (digits s).take k :=
  List.take_takeWhile.symm

theorem digits_length_le (s : Bytes) : (digits s).length ≤ s.length :=
  (List.takeWhile_sublist _).length_le

theorem digits_take_of_le (h : (digits s).length ≤ k) : digits (s.take k) = digits s := by
  rw [digits_take, List.take_of_length_le h]

theorem fractionPart_cons (b : Byte) (s : Bytes) : fractionPart (b :: s) =
    if b = 0x2e then (digits s, (digits s).length + 1) else ([], 0) := by
  unfold fractionPart
  split
  · rename_i eq
    obtain ⟨rfl, rfl⟩ := List.cons.inj eq
    rfl
  · rename_i other
    rw [if_neg]
    rintro rfl
    exact other s rfl

theorem fractionPart_length_le (s : Bytes) : (fractionPart s).2 ≤ s.length := by
  cases s with
  | nil => exact Nat.zero_le _
  | cons b s =>
    have length := digits_length_le s
    rw [fractionPart_cons, List.length_cons]
    split
    · exact Nat.succ_le_succ length
    · exact Nat.zero_le _

theorem fractionPart_take (h : (fractionPart s).2 ≤ k) :
    fractionPart (s.take k) = fractionPart s := by
  cases s with
  | nil => rw [List.take_nil]
  | cons b s =>
    rw [fractionPart_cons] at h ⊢
    cases k with
    | zero =>
      split at h
      · exact absurd h (Nat.not_succ_le_zero _)
      · rename_i other
        rw [if_neg other]
        rfl
    | succ k =>
      rw [List.take_succ_cons, fractionPart_cons]
      split
      · rename_i point
        rw [if_pos point] at h
        rw [digits_take_of_le (Nat.le_of_succ_le_succ h)]
      · rfl

theorem fractionPart_take_nil (h : (fractionPart s).1 = []) : (fractionPart (s.take k)).1 = [] := by
  cases s with
  | nil => rw [List.take_nil]; rfl
  | cons b s =>
    cases k with
    | zero => rfl
    | succ k =>
      rw [fractionPart_cons] at h
      rw [List.take_succ_cons, fractionPart_cons]
      split
      · rename_i point
        rw [if_pos point] at h
        have none : digits s = [] := h
        rw [digits_take, none, List.take_nil]
      · rfl

/-- The digits of an exponent that starts with a byte, which may be a sign. -/
def exponentDigits (b : Byte) (s : Bytes) : Bytes :=
  if b = 0x2b ∨ b = 0x2d then digits s else digits (b :: s)

def signLength (b : Byte) : ℕ := if b = 0x2b ∨ b = 0x2d then 1 else 0

theorem exponentBody?_cons (b : Byte) (s : Bytes) : exponentBody? (b :: s) =
    if (exponentDigits b s).isEmpty then none
    else
      let n : Int := value (exponentDigits b s)
      some (if b = 0x2d then -n else n, signLength b + (exponentDigits b s).length) := by
  by_cases plus : b = 0x2b
  · subst plus
    rfl
  by_cases minus : b = 0x2d
  · subst minus
    rfl
  unfold exponentBody?
  split
  · rename_i eq
    exact absurd (List.cons.inj eq).1 plus
  · rename_i eq
    exact absurd (List.cons.inj eq).1 minus
  · simp [exponentDigits, signLength, plus, minus]

theorem exponentDigits_take (b : Byte) (s : Bytes) (k : ℕ) : exponentDigits b (s.take k) =
    (exponentDigits b s).take (k + 1 - signLength b) := by
  unfold exponentDigits signLength
  split
  · exact digits_take s k
  · exact digits_take (b :: s) (k + 1)

theorem exponentDigits_length_le (b : Byte) (s : Bytes) :
    signLength b + (exponentDigits b s).length ≤ s.length + 1 := by
  unfold exponentDigits signLength
  split
  · have length := digits_length_le s
    omega
  · have length := digits_length_le (b :: s)
    rw [List.length_cons] at length
    omega

theorem exponentBody?_length_le {e : Int} {length : ℕ} (h : exponentBody? s = some (e, length)) :
    length ≤ s.length := by
  cases s with
  | nil => simp [exponentBody?, digits] at h
  | cons b s =>
    rw [exponentBody?_cons] at h
    split at h
    · simp at h
    · simp only [Option.some.injEq, Prod.mk.injEq] at h
      exact h.2 ▸ exponentDigits_length_le b s

theorem exponentBody?_take_none (h : exponentBody? s = none) : exponentBody? (s.take k) = none := by
  cases s with
  | nil => rw [List.take_nil]; exact h
  | cons b s =>
    cases k with
    | zero => rfl
    | succ k =>
      rw [exponentBody?_cons] at h
      have none : exponentDigits b s = [] := by
        by_contra some
        simp [some] at h
      rw [List.take_succ_cons, exponentBody?_cons, exponentDigits_take, none, List.take_nil]
      rfl

theorem exponentBody?_take {e : Int} {length : ℕ} (h : exponentBody? s = some (e, length))
    (le : length ≤ k) : exponentBody? (s.take k) = some (e, length) := by
  cases s with
  | nil => rw [List.take_nil]; exact h
  | cons b s =>
    have body := exponentBody?_cons b s
    rw [h] at body
    split at body
    · simp at body
    · rename_i some
      simp only [Option.some.injEq, Prod.mk.injEq] at body
      have pos : 0 < (exponentDigits b s).length :=
        List.length_pos_iff.mpr (by simpa using some)
      obtain ⟨k, rfl⟩ : ∃ j, k = j + 1 := ⟨k - 1, by omega⟩
      have same : exponentDigits b (s.take k) = exponentDigits b s := by
        rw [exponentDigits_take, List.take_of_length_le (by omega)]
      rw [List.take_succ_cons, exponentBody?_cons, same, ← exponentBody?_cons, h]

theorem exponentPart_cons (b : Byte) (s : Bytes) : exponentPart (b :: s) =
    if b = 0x65 ∨ b = 0x45 then (exponentBody? s).elim (0, 0) fun body => (body.1, body.2 + 1)
    else (0, 0) := by
  rw [exponentPart]
  cases exponentBody? s <;> rfl

theorem exponentPart_length_le (s : Bytes) : (exponentPart s).2 ≤ s.length := by
  cases s with
  | nil => exact Nat.zero_le _
  | cons b s =>
    rw [exponentPart_cons]
    split
    · cases found : exponentBody? s with
      | none => exact Nat.zero_le _
      | some body => exact Nat.succ_le_succ (exponentBody?_length_le found)
    · exact Nat.zero_le _

theorem exponentPart_take (h : (exponentPart s).2 ≤ k) :
    exponentPart (s.take k) = exponentPart s := by
  cases s with
  | nil => rw [List.take_nil]
  | cons b s =>
    rw [exponentPart_cons] at h ⊢
    by_cases mark : b = 0x65 ∨ b = 0x45
    · rw [if_pos mark] at h ⊢
      cases found : exponentBody? s with
      | none =>
        cases k with
        | zero => rfl
        | succ k =>
          rw [List.take_succ_cons, exponentPart_cons, if_pos mark, exponentBody?_take_none found]
      | some body =>
        rw [found] at h
        have length : body.2 + 1 ≤ k := h
        obtain ⟨k, rfl⟩ : ∃ j, k = j + 1 := ⟨k - 1, by omega⟩
        rw [List.take_succ_cons, exponentPart_cons, if_pos mark,
          exponentBody?_take found (Nat.le_of_succ_le_succ length)]
    · rw [if_neg mark]
      cases k with
      | zero => rfl
      | succ k => rw [List.take_succ_cons, exponentPart_cons, if_neg mark]

theorem read?_length_le {n : Numeral} (h : read? s = some n) : n.length ≤ s.length := by
  unfold read? at h
  dsimp only at h
  split at h
  · simp at h
  · have whole := digits_length_le s
    have point := fractionPart_length_le (s.drop (digits s).length)
    have mark := exponentPart_length_le
      (s.drop ((digits s).length + (fractionPart (s.drop (digits s).length)).2))
    rw [List.length_drop] at point mark
    rw [← Option.some.inj h]
    dsimp only
    omega

/-- A text that is cut behind its numeral reads the same. -/
theorem read?_take {n : Numeral} (h : read? s = some n) (le : n.length ≤ k) :
    read? (s.take k) = some n := by
  have length : (digits s).length + (fractionPart (s.drop (digits s).length)).2 +
      (exponentPart (s.drop ((digits s).length + (fractionPart (s.drop (digits s).length)).2))).2 =
      n.length := by
    unfold read? at h
    dsimp only at h
    split at h
    · simp at h
    · rw [← Option.some.inj h]
  have whole : digits (s.take k) = digits s := digits_take_of_le (by omega)
  have point : fractionPart ((s.take k).drop (digits s).length) =
      fractionPart (s.drop (digits s).length) := by
    rw [List.drop_take]
    exact fractionPart_take (by omega)
  have mark (i : ℕ) (hi : i + (exponentPart (s.drop i)).2 ≤ k) :
      exponentPart ((s.take k).drop i) = exponentPart (s.drop i) := by
    rw [List.drop_take]
    exact exponentPart_take (by omega)
  rw [← h]
  unfold read?
  dsimp only
  rw [whole, point, mark _ (by omega)]

/-- No part of a text reads as a numeral if the text does not. -/
theorem read?_take_none (h : read? s = none) : read? (s.take k) = none := by
  unfold read? at h
  dsimp only at h
  split at h
  · rename_i none
    simp only [Bool.and_eq_true, List.isEmpty_iff] at none
    obtain ⟨whole, point⟩ := none
    rw [whole] at point
    have whole' : digits (s.take k) = [] := by rw [digits_take, whole, List.take_nil]
    have point' : (fractionPart (s.take k)).1 = [] := fractionPart_take_nil point
    unfold read?
    simp [whole', point']
  · simp at h

end AwkCore.Numeral
