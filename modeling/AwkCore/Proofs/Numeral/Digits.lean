import Mathlib.Data.List.DropRight
import AwkCore.Binary64.Format
import AwkCore.Proofs.Numeral.Grammar
import AwkCore.Proofs.Text.Ascii

/-!
# Numbers written in digits

The digits of a whole number are a row that writes it, without a zero in front. A row of digits with a
point among them writes the same number when zeros at the end of its fraction are left out.
-/
namespace AwkCore

namespace Numeral

/-- A point with digits behind it, of which the last is not zero; or nothing. -/
inductive Fraction : Bytes → Prop
  | absent : Fraction []
  | pointed {fs : Bytes} (behind : IsRow fs) (last : fs.getLast? ≠ some 0x30) : Fraction (0x2e :: fs)

variable {c : Char} {cs : List Char} {n : ℕ}

theorem digit_bounds (digit : c.isDigit = true) : 48 ≤ c.toNat ∧ c.toNat ≤ 57 := by
  simpa [Char.isDigit, UInt32.le_iff_toNat_le] using digit

theorem toNat_toUInt8 (digit : c.isDigit = true) : c.toUInt8.toNat = c.toNat := by
  have small := (digit_bounds digit).2
  have code : c.toUInt8.toNat = c.toNat % 256 := UInt32.toNat_toUInt8 c.val
  rw [code, Nat.mod_eq_of_lt (by omega)]

theorem eq_zero_of_toUInt8 (digit : c.isDigit = true) (zero : c.toUInt8 = 0x30) : c = '0' := by
  have code := toNat_toUInt8 digit
  rw [zero] at code
  exact Char.toNat_inj.mp code.symm

theorem isDigit_toUInt8 (digit : c.isDigit = true) : Byte.isDigit c.toUInt8 = true := by
  obtain ⟨low, high⟩ := digit_bounds digit
  have code := toNat_toUInt8 digit
  simp only [Byte.isDigit, Bool.and_eq_true, decide_eq_true_eq, UInt8.le_iff_toNat_le, code]
  exact ⟨low, high⟩

theorem isRow_map (digits : ∀ c ∈ cs, c.isDigit = true) (some : cs ≠ []) :
    IsRow (cs.map Char.toUInt8) := by
  refine ⟨fun b mem => ?_, by simpa using some⟩
  obtain ⟨c, at_c, rfl⟩ := List.mem_map.mp mem
  exact isDigit_toUInt8 (digits c at_c)

/-- Digits write the number that they are as characters. -/
theorem natural_map (digits : ∀ c ∈ cs, c.isDigit = true) :
    natural (cs.map Char.toUInt8) = Nat.ofDigitChars 10 cs 0 := by
  rw [← value_eq_natural, value, List.foldl_map, Nat.ofDigitChars_eq_foldl]
  refine List.foldl_ext _ _ _ fun n c mem => ?_
  rw [Byte.digitValue, toNat_toUInt8 (digits c mem)]
  rfl

theorem toList_toString (n : ℕ) : (toString n).toList = Nat.toDigits 10 n := by
  rw [Nat.toString_eq_ofList_toDigits, String.toList_ofList]

theorem toDigits_digits (n : ℕ) : ∀ c ∈ Nat.toDigits 10 n, c.isDigit = true :=
  fun _ mem => Nat.isDigit_of_mem_toDigits (by decide) (by decide) mem

theorem toDigits_ne_nil (n : ℕ) : Nat.toDigits 10 n ≠ [] :=
  List.ne_nil_of_length_pos Nat.length_toDigits_pos

theorem natural_toDigits (n : ℕ) : natural ((Nat.toDigits 10 n).map Char.toUInt8) = n := by
  rw [natural_map (toDigits_digits n), Nat.ofDigitChars_ten_toDigits]

/-- The digits of a number do not begin with zero. -/
theorem head?_toDigits (pos : 0 < n) : (Nat.toDigits 10 n).head? ≠ some '0' := by
  induction n using Nat.strong_induction_on with
  | _ n ih =>
    rcases Nat.lt_or_ge n 10 with one | more
    · rw [Nat.toDigits_of_lt_base one, List.head?_cons, Ne, Option.some.injEq, Nat.digitChar_eq_zero]
      exact pos.ne'
    · rw [Nat.toDigits_of_base_le (by decide) more, List.head?_append_of_ne_nil _ (toDigits_ne_nil _)]
      exact ih (n / 10) (by omega) (by omega)

theorem natural_zeros {zs : List Char} (zeros : ∀ c ∈ zs, c = '0') :
    natural (zs.map Char.toUInt8) = 0 := by
  rw [List.eq_replicate_of_mem zeros, natural_map, Nat.ofDigitChars_replicate_zero, Nat.mul_zero]
  exact fun c mem => List.eq_of_mem_replicate mem ▸ rfl

/-- Zeros at the end of a fraction add nothing. -/
theorem fractional_append_zeros {fs zs : List Char} (zeros : ∀ c ∈ zs, c = '0') :
    fractional ((fs ++ zs).map Char.toUInt8) = fractional (fs.map Char.toUInt8) := by
  have power : (10 : ℚ) ^ zs.length ≠ 0 := pow_ne_zero _ (by norm_num)
  rw [List.map_append, fractional, natural_append, natural_zeros zeros, fractional,
    List.length_append, List.length_map, List.length_map, pow_add]
  push_cast
  rw [add_zero, mul_div_mul_right _ _ power]

theorem fractional_trimmed (fs : List Char) :
    fractional ((fs.rdropWhile (· == '0')).map Char.toUInt8) = fractional (fs.map Char.toUInt8) := by
  have zeros : ∀ c ∈ fs.rtakeWhile (· == '0'), c = '0' := by
    intro c mem
    have zero := List.mem_rtakeWhile_imp mem
    exact beq_iff_eq.mp zero
  rw [← fractional_append_zeros zeros, List.rdropWhile_append_rtakeWhile]

/-- The number that a row of digits writes with a point before the last of them. -/
theorem natural_div (ds fs : Bytes) :
    (natural (ds ++ fs) / 10 ^ fs.length : ℚ) = natural ds + fractional fs := by
  have power : (10 : ℚ) ^ fs.length ≠ 0 := pow_ne_zero _ (by norm_num)
  rw [natural_append, fractional]
  push_cast
  rw [add_div, mul_div_cancel_right₀ _ power]

theorem pointed_eq (whole : ℕ) (ds : List Char) : Binary64.pointed whole ds = ds.take whole ++
    (if ((ds.drop whole).rdropWhile (· == '0')).isEmpty then []
      else '.' :: (ds.drop whole).rdropWhile (· == '0')) := rfl

/-- What is left of digits without the zeros at their end has no zero there. -/
theorem getLast?_trimmed {fs : List Char} (digits : ∀ c ∈ fs, c.isDigit = true) :
    ((fs.rdropWhile (· == '0')).map Char.toUInt8).getLast? ≠ some 0x30 := by
  rw [List.getLast?_map, Ne, Option.map_eq_some_iff]
  rintro ⟨c, last, zero⟩
  have mem := List.mem_of_getLast? last
  have some := List.ne_nil_of_mem mem
  rw [List.getLast?_eq_some_getLast some, Option.some.injEq] at last
  have ends := List.rdropWhile_last_not _ _ some
  rw [last, eq_zero_of_toUInt8 (digits c ((List.rdropWhile_prefix _ _).subset mem)) zero] at ends
  exact ends rfl

/-- Digits with a point are digits and a fraction, which are the same number. -/
theorem pointed_writes {ds : List Char} (whole : ℕ) (digits : ∀ c ∈ ds, c.isDigit = true)
    (pos : 0 < whole) (le : whole ≤ ds.length) :
    ∃ f, IsRow ((ds.take whole).map Char.toUInt8) ∧ Fraction f ∧
      (Binary64.pointed whole ds).map Char.toUInt8 = (ds.take whole).map Char.toUInt8 ++ f ∧
      Mantissa ((ds.take whole).map Char.toUInt8 ++ f)
        (natural (ds.map Char.toUInt8) / 10 ^ (ds.length - whole)) := by
  have front : IsRow ((ds.take whole).map Char.toUInt8) := by
    refine isRow_map (fun c mem => digits c (List.mem_of_mem_take mem)) ?_
    rw [Ne, List.take_eq_nil_iff]
    rintro (zero | rfl)
    · exact pos.ne' zero
    · exact absurd le (Nat.not_le.mpr pos)
  have number : (natural (ds.map Char.toUInt8) / 10 ^ (ds.length - whole) : ℚ) =
      natural ((ds.take whole).map Char.toUInt8) +
        fractional (((ds.drop whole).rdropWhile (· == '0')).map Char.toUInt8) := by
    have parts := natural_div ((ds.take whole).map Char.toUInt8) ((ds.drop whole).map Char.toUInt8)
    rw [← List.map_append, List.take_append_drop, List.length_map, List.length_drop] at parts
    rw [parts, fractional_trimmed]
  have behind : ∀ c ∈ ds.drop whole, c.isDigit = true := fun c mem => digits c (List.mem_of_mem_drop mem)
  have last := getLast?_trimmed behind
  have left : ∀ c ∈ (ds.drop whole).rdropWhile (· == '0'), c.isDigit = true :=
    fun c mem => behind c ((List.rdropWhile_prefix _ _).subset mem)
  rw [number, pointed_eq]
  cases fraction : (ds.drop whole).rdropWhile (· == '0') with
  | nil =>
    refine ⟨[], front, .absent, ?_, ?_⟩
    · rw [List.append_nil, List.isEmpty_nil, if_pos rfl, List.append_nil]
    · rw [List.append_nil, List.map_nil, fractional_nil, add_zero]
      exact .whole front
  | cons c fs =>
    rw [fraction] at last left
    have row : IsRow ((c :: fs).map Char.toUInt8) := isRow_map left (List.cons_ne_nil _ _)
    refine ⟨0x2e :: (c :: fs).map Char.toUInt8, front, .pointed row last, ?_, .mixed front row⟩
    rw [List.isEmpty_cons, if_neg Bool.false_ne_true, List.map_append, List.map_cons]
    rfl

end Numeral

end AwkCore
