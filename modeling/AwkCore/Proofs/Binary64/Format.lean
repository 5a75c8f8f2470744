import AwkCore.Proofs.Binary64.Order
import AwkCore.Proofs.Binary64.Rounding
import AwkCore.Proofs.Numeral.Digits

/-!
# Text of numbers

The text of a whole number below the bound is that number in digits. Any other finite double is written
in six significant digits, as they come from its exact value, in one of two forms: which of them it is
depends on the power of ten that the rounded number has.
-/
namespace AwkCore

open Numeral (IsRow natural Fraction Mantissa Exponent Writes)

/-- The two forms of a number whose first digit has the weight `10 ^ e`. With an exponent there is one
digit before the point, and the exponent has a sign and two digits or more. -/
inductive GeneralForm (e : ℤ) : Bytes → Prop
  | positional {ds f : Bytes} (inside : -4 ≤ e ∧ e < 6) (row : IsRow ds)
    (front : ds.head? = some 0x30 → ds = [0x30]) (fraction : Fraction f) : GeneralForm e (ds ++ f)
  | scientific {d : Byte} {f es : Bytes} (outside : e < -4 ∨ 6 ≤ e) (digit : Byte.isDigit d = true)
    (nonzero : d ≠ 0x30) (fraction : Fraction f) (row : IsRow es) (number : natural es = e.natAbs)
    (two : 2 ≤ es.length) (front : 2 < es.length → es.head? ≠ some 0x30) :
    GeneralForm e (d :: f ++ 0x65 :: (if e < 0 then 0x2d else 0x2b) :: es)

namespace Binary64

variable {ds : List Char} {n whole width : ℕ}

theorem plain_of_isDigit {c : Char} (digit : c.isDigit = true) : c.toNat < 0x80 := by
  have high := (Numeral.digit_bounds digit).2
  omega

theorem encode_digits (digits : ∀ c ∈ ds, c.isDigit = true) :
    Utf8.encode (String.ofList ds) = ds.map Char.toUInt8 := by
  rw [Utf8.encode_ascii, ascii_ofList]
  rw [String.toList_ofList]
  exact fun c mem => plain_of_isDigit (digits c mem)

theorem encode_pointed (digits : ∀ c ∈ ds, c.isDigit = true) :
    Utf8.encode (String.ofList (pointed whole ds)) = (pointed whole ds).map Char.toUInt8 := by
  rw [Utf8.encode_ascii, ascii_ofList]
  rw [String.toList_ofList]
  intro c mem
  rw [Numeral.pointed_eq, List.mem_append] at mem
  rcases mem with front | behind
  · exact plain_of_isDigit (digits c (List.mem_of_mem_take front))
  · split at behind
    · cases behind
    · rcases List.mem_cons.mp behind with rfl | fraction
      · decide
      · exact plain_of_isDigit
          (digits c (List.mem_of_mem_drop ((List.rdropWhile_prefix _ _).subset fraction)))

/-- Digits of a number with zeros in front. -/
theorem toList_padded (width n : ℕ) : (padded width n).toList =
    List.replicate (width - (Nat.toDigits 10 n).length) '0' ++ Nat.toDigits 10 n := by
  rw [padded, String.toList_append, String.toList_ofList, Numeral.toList_toString,
    ← String.length_toList, Numeral.toList_toString]

theorem padded_digits : ∀ c ∈ (padded width n).toList, c.isDigit = true := by
  rw [toList_padded]
  refine List.forall_mem_append.mpr ⟨fun c mem => ?_, Numeral.toDigits_digits n⟩
  rw [List.eq_of_mem_replicate mem]
  rfl

theorem length_padded (width n : ℕ) :
    (padded width n).toList.length = max width (Nat.toDigits 10 n).length := by
  rw [toList_padded, List.length_append, List.length_replicate]
  omega

theorem natural_padded (width n : ℕ) :
    natural ((padded width n).toList.map Char.toUInt8) = n := by
  rw [toList_padded, List.map_append, Numeral.natural_append,
    Numeral.natural_zeros fun c mem => List.eq_of_mem_replicate mem, Numeral.natural_toDigits,
    Nat.zero_mul, Nat.zero_add]

/-- A number that fills its width has no zero in front. -/
theorem head?_padded (pos : 0 < n) (fills : width ≤ (Nat.toDigits 10 n).length) :
    ((padded width n).toList.map Char.toUInt8).head? ≠ some 0x30 := by
  rw [toList_padded, Nat.sub_eq_zero_of_le fills, List.replicate_zero, List.nil_append,
    List.head?_map, Ne, Option.map_eq_some_iff]
  rintro ⟨c, head, zero⟩
  have digit := Numeral.toDigits_digits n c (List.mem_of_head? head)
  rw [Numeral.eq_zero_of_toUInt8 digit zero] at head
  exact Numeral.head?_toDigits pos head

theorem six_digits (low : 10 ^ 5 ≤ n) (high : n < 10 ^ 6) : (Nat.toDigits 10 n).length = 6 := by
  have most := (Nat.length_toDigits_le_iff (b := 10) (by decide) (k := 6) (by decide)).mpr high
  have least := mt (Nat.length_toDigits_le_iff (b := 10) (n := n) (by decide) (k := 5) (by decide)).mp
    (Nat.not_lt.mpr low)
  omega

/-- The text of an exponent behind its mark. -/
theorem exponent_written (e : ℤ) (outside : e < -4 ∨ 6 ≤ e) :
    ∃ es, Utf8.encode ((if e < 0 then "e-" else "e+") ++ padded 2 e.natAbs) =
        0x65 :: (if e < 0 then 0x2d else 0x2b) :: es ∧
      IsRow es ∧ natural es = e.natAbs ∧ 2 ≤ es.length ∧ (2 < es.length → es.head? ≠ some 0x30) ∧
      Exponent (0x65 :: (if e < 0 then 0x2d else 0x2b) :: es) e := by
  let es := (padded 2 e.natAbs).toList.map Char.toUInt8
  have length : es.length = max 2 (Nat.toDigits 10 e.natAbs).length := by
    rw [List.length_map, length_padded]
  have row : IsRow es := by
    refine Numeral.isRow_map padded_digits fun none => ?_
    rw [List.length_map, none, List.length_nil] at length
    omega
  have number : natural es = e.natAbs := natural_padded 2 e.natAbs
  have bytes : Utf8.encode (padded 2 e.natAbs) = es := by
    rw [← String.ofList_toList (s := padded 2 e.natAbs), encode_digits padded_digits]
  have minus : Utf8.encode "e-" = [0x65, 0x2d] := Utf8.encode_ascii (by simp)
  have plus : Utf8.encode "e+" = [0x65, 0x2b] := Utf8.encode_ascii (by simp)
  refine ⟨es, ?_, row, number, by omega, fun longer => ?_, ?_⟩
  · rw [Utf8.encode_append, bytes]
    split
    · rw [minus, List.cons_append, List.cons_append, List.nil_append]
    · rw [plus, List.cons_append, List.cons_append, List.nil_append]
  · exact head?_padded (by omega) (by omega)
  · split
    case isTrue negative =>
      have power : e = -(natural es : ℤ) := by omega
      rw [power]
      exact .minus (.inl rfl) row
    case isFalse positive =>
      have power : e = (natural es : ℤ) := by omega
      rw [power]
      exact .plus (.inl rfl) row

open Significant in
theorem scientific_written {s : Significant} (low : 10 ^ 5 ≤ s.digits) (high : s.digits < 10 ^ 6)
    (outside : s.exponent < -4 ∨ 6 ≤ s.exponent) :
    let text := String.ofList (pointed 1 (toString s.digits).toList) ++
      (if s.exponent < 0 then "e-" else "e+") ++ padded 2 s.exponent.natAbs
    GeneralForm s.exponent (Utf8.encode text) ∧ Writes (Utf8.encode text) s.value := by
  intro text
  have digits := Numeral.toDigits_digits s.digits
  have length := six_digits low high
  obtain ⟨f, _, fraction, shape, mantissa⟩ :=
    Numeral.pointed_writes 1 digits (by decide) (by omega)
  obtain ⟨es, bytes, row, number, two, front, exponent⟩ := exponent_written s.exponent outside
  obtain ⟨c, cs, first⟩ := List.exists_cons_of_ne_nil (Numeral.toDigits_ne_nil s.digits)
  have one : ((Nat.toDigits 10 s.digits).take 1).map Char.toUInt8 = [c.toUInt8] := by rw [first]; rfl
  have digit : c.isDigit = true := digits c (by rw [first]; exact List.mem_cons_self)
  have nonzero : c.toUInt8 ≠ 0x30 := by
    intro zero
    refine Numeral.head?_toDigits (n := s.digits) (by omega) ?_
    rw [first, Numeral.eq_zero_of_toUInt8 digit zero, List.head?_cons]
  have whole : Utf8.encode text =
      ([c.toUInt8] ++ f) ++ 0x65 :: (if s.exponent < 0 then 0x2d else 0x2b) :: es := by
    have parts : text = String.ofList (pointed 1 (Nat.toDigits 10 s.digits)) ++
        ((if s.exponent < 0 then "e-" else "e+") ++ padded 2 s.exponent.natAbs) := by
      rw [← Numeral.toList_toString]
      exact String.append_assoc
    rw [parts, Utf8.encode_append, encode_pointed digits, shape, one, bytes]
  rw [one, length, Numeral.natural_toDigits] at mantissa
  rw [whole]
  constructor
  · exact .scientific outside (Numeral.isDigit_toUInt8 digit) nonzero fraction row number two front
  · have value : s.value = s.digits / 10 ^ (6 - 1) * 10 ^ s.exponent := by
      rw [Significant.value, zpow_sub₀ (by norm_num)]
      norm_num
      ring
    rw [value]
    exact .intro mantissa exponent

/-- Six digits with so many places behind the point as leave the first its weight. -/
theorem positional_written {e : ℤ} {p : ℕ} (low : 10 ^ 5 ≤ n) (high : n < 10 ^ 6)
    (inside : -4 ≤ e ∧ e < 6) (places : 5 - e = p) :
    let digits := (padded (p + 1) n).toList
    let text := String.ofList (pointed (digits.length - p) digits)
    GeneralForm e (Utf8.encode text) ∧ Writes (Utf8.encode text) (n * 10 ^ (e - 5)) := by
  intro digits text
  have count := six_digits low high
  have length : digits.length = max (p + 1) 6 := by rw [length_padded, count]
  have all : ∀ c ∈ digits, c.isDigit = true := padded_digits
  obtain ⟨f, row, fraction, shape, mantissa⟩ :=
    Numeral.pointed_writes (digits.length - p) all (by omega) (by omega)
  have bytes : Utf8.encode text = (digits.take (digits.length - p)).map Char.toUInt8 ++ f := by
    rw [encode_pointed all, shape]
  have behind : digits.length - (digits.length - p) = p := by omega
  rw [behind, natural_padded] at mantissa
  rw [bytes]
  constructor
  · refine .positional inside row (fun zero => ?_) fraction
    rcases Nat.lt_or_ge 5 p with small | large
    · have one : digits.length - p = 1 := by omega
      obtain ⟨k, zeros⟩ : ∃ k, p + 1 - 6 = k + 1 := ⟨p - 6, by omega⟩
      rw [one]
      simp only [digits, toList_padded, count, zeros, List.replicate_succ]
      rfl
    · rw [List.map_take, List.head?_take, if_neg (by omega)] at zero
      exact absurd zero (head?_padded (by omega) (by omega))
  · have value : (n * 10 ^ (e - 5) : ℚ) = n / 10 ^ p * 10 ^ (0 : ℤ) := by
      have weight : e - 5 = -(p : ℤ) := by omega
      rw [weight, zpow_neg, zpow_natCast, zpow_zero, mul_one, div_eq_mul_inv]
    rw [value, ← List.append_nil (_ ++ f)]
    exact .intro mantissa .absent

variable {x : Binary64}

/-- A positive magnitude in six significant digits, in the form for its power of ten. -/
theorem generalText_written (pos : 0 < x.units) :
    ∃ (v : ℚ) (e : ℤ), IsSixDigits x.magnitude v ∧ 10 ^ e ≤ v ∧ v < 10 ^ (e + 1) ∧
      Writes (Utf8.encode x.generalText) v ∧ GeneralForm e (Utf8.encode x.generalText) := by
  obtain ⟨s, at_s⟩ : ∃ s, Significant.round x.units one = s := ⟨_, rfl⟩
  have carries := Significant.carries_round pos one_pos
  obtain ⟨below, above⟩ := Significant.magnitude_bounds pos one_pos
  rw [at_s, ← magnitude] at carries
  obtain ⟨low, high⟩ := carries.digits_bounds
  obtain ⟨least, most⟩ := carries.value_bounds
  refine ⟨s.value, s.exponent, carries.isSixDigits below above, least, most, ?_⟩
  have six : (Significant.precision : ℤ) = 6 := rfl
  have five : (6 : ℤ) - 1 = 5 := rfl
  unfold generalText
  simp only [at_s, six, five, Bool.or_eq_true, decide_eq_true_eq]
  split
  case isTrue outside => exact (scientific_written low high outside).symm
  case isFalse within =>
    obtain ⟨p, places⟩ : ∃ p : ℕ, 5 - s.exponent = p := ⟨(5 - s.exponent).toNat, by omega⟩
    -- The second rounding is to the weight that the sixth digit has after the first.
    have again : RoundsTo (x.magnitude / 10 ^ (s.exponent - 5))
        (roundDiv (x.units * 10 ^ p) one) := by
      have scaled : x.magnitude / 10 ^ (s.exponent - 5) = (x.units * 10 ^ p : ℕ) / one := by
        have weight : s.exponent - 5 = -(p : ℤ) := by omega
        rw [weight, zpow_neg, zpow_natCast, div_inv_eq_mul, magnitude, div_mul_eq_mul_div]
        push_cast
        rfl
      rw [scaled]
      exact roundDiv_roundsTo _ one_pos
    have inside : -4 ≤ s.exponent ∧ s.exponent < 6 := by omega
    have written := positional_written low high inside places
    rw [carries.roundsTo.unique again] at written
    rw [places, Int.toNat_natCast, Significant.value, carries.roundsTo.unique again]
    exact written.symm

/-- The whole number that a double is, if it is one below the bound. -/
theorem plain?_eq_some : x.plain? = some n ↔ x.magnitude = n ∧ n < 10 ^ 15 := by
  have pos : (0 : ℚ) < one := Nat.cast_pos.mpr one_pos
  have units : x.magnitude = n ↔ x.units = n * one := by
    rw [magnitude, div_eq_iff pos.ne']
    exact_mod_cast Iff.rfl
  rw [units, plain?]
  constructor
  · intro some
    obtain ⟨⟨whole, small⟩, same⟩ := Option.ite_none_right_eq_some.mp some
    obtain rfl := Option.some.inj same
    exact ⟨(Nat.div_mul_cancel (Nat.dvd_of_mod_eq_zero whole)).symm, small⟩
  · rintro ⟨whole, small⟩
    rw [whole, Nat.mul_mod_left, Nat.mul_div_cancel _ one_pos]
    exact if_pos ⟨rfl, small⟩

theorem natAbs_eq_magnitude {k : ℤ} (whole : x.toRat = k) : x.magnitude = k.natAbs := by
  rw [← abs_toRat, whole, Nat.cast_natAbs, Int.cast_abs]

/-- The text of a finite double, with its sign told apart. -/
theorem text_of_finite (finite : x.rank < infinityRank) :
    x.text = match x.plain? with
      | some 0 => "0"
      | some n => (if x.negative then "-" else "") ++ toString n
      | none => (if x.negative then "-" else "") ++ x.generalText := by
  have number : x.isNaN = false := decide_eq_false (by omega)
  have bounded : x.isInfinite = false := beq_eq_false_iff_ne.mpr finite.ne
  rw [text, number, bounded]
  exact (if_neg Bool.false_ne_true).trans (if_neg Bool.false_ne_true)

theorem negative_iff {k : ℤ} (whole : x.toRat = k) (nonzero : k ≠ 0) : x.negative = true ↔ k < 0 := by
  have size : (0 : ℚ) < x.magnitude := by
    rw [natAbs_eq_magnitude whole]
    exact_mod_cast Int.natAbs_pos.mpr nonzero
  rw [← Int.cast_lt_zero (R := ℚ), ← whole, toRat]
  cases x.negative with
  | false => simpa using size.le
  | true => simpa using size

theorem toString_int (k : ℤ) :
    toString k = (if k < 0 then "-" else "") ++ toString k.natAbs := by
  rw [Int.toString_eq_repr, Int.repr_eq_if]
  by_cases negative : k < 0
  · have size : (-k).toNat = k.natAbs := by omega
    rw [if_neg (Int.not_le.mpr negative), if_pos negative, size]
    rfl
  · have size : k.toNat = k.natAbs := by omega
    rw [if_pos (Int.not_lt.mp negative), if_neg negative, size]
    exact String.empty_append.symm

/-- The text of a whole number below the bound is that number in digits. -/
theorem text_whole (finite : x.rank < infinityRank) {k : ℤ} (whole : x.toRat = k)
    (small : |k| < 10 ^ 15) : x.text = toString k := by
  have plain : x.plain? = some k.natAbs := by
    refine plain?_eq_some.mpr ⟨natAbs_eq_magnitude whole, ?_⟩
    rw [Int.abs_eq_natAbs] at small
    exact_mod_cast small
  rw [text_of_finite finite, plain, toString_int]
  rcases eq_or_ne k 0 with rfl | nonzero
  · rfl
  obtain ⟨n, size⟩ : ∃ n, k.natAbs = n + 1 := ⟨k.natAbs - 1, by omega⟩
  rw [size]
  simp only [negative_iff whole nonzero]

theorem plain?_eq_none (other : ¬ ∃ k : ℤ, x.toRat = k ∧ |k| < 10 ^ 15) : x.plain? = none := by
  cases plain : x.plain? with
  | none => rfl
  | some n =>
    obtain ⟨whole, small⟩ := plain?_eq_some.mp plain
    refine absurd ⟨if x.negative then -n else n, ?_, ?_⟩ other
    · rw [toRat, whole]
      split <;> simp
    · have size : |if x.negative = true then -(n : ℤ) else n| = n := by
        split
        · rw [abs_neg, Nat.abs_cast]
        · exact Nat.abs_cast n
      rw [size]
      exact_mod_cast small

/-- The text of a whole number below the bound is that number in digits, without a sign for zero. Any
other finite double is written as its exact value in six significant digits, of halves the even one:
with an exponent when the rounded number is below 10^-4 or has more than six digits before the point,
and else without. -/
theorem text_general (x : Binary64) (finite : x.rank < infinityRank) :
    (∀ k : ℤ, x.toRat = k → |k| < 10 ^ 15 → x.text = toString k) ∧
      ((¬ ∃ k : ℤ, x.toRat = k ∧ |k| < 10 ^ 15) →
        ∃ (v : ℚ) (e : ℤ) (body : Bytes), IsSixDigits x.magnitude v ∧ 10 ^ e ≤ v ∧ v < 10 ^ (e + 1) ∧
          Utf8.encode x.text = (if x.negative then 0x2d :: body else body) ∧
          Writes body v ∧ GeneralForm e body) := by
  refine ⟨fun k whole small => text_whole finite whole small, fun other => ?_⟩
  have plain := plain?_eq_none other
  have pos : 0 < x.units := by
    refine Nat.pos_of_ne_zero fun zero => ?_
    have some : x.plain? = some 0 := plain?_eq_some.mpr
      ⟨(magnitude_eq_zero zero).trans Nat.cast_zero.symm, by positivity⟩
    rw [plain] at some
    cases some
  obtain ⟨v, e, rounded, least, most, writes, form⟩ := generalText_written pos
  refine ⟨v, e, Utf8.encode x.generalText, rounded, least, most, ?_, writes, form⟩
  rw [text_of_finite finite, plain, Utf8.encode_append]
  cases x.negative with
  | false => rw [if_neg Bool.false_ne_true, if_neg Bool.false_ne_true, Utf8.encode_empty,
    List.nil_append]
  | true => rw [if_pos rfl, if_pos rfl, Utf8.encode_minus, List.singleton_append]

/-- A number that is rounded up to seven digits gets an exponent. -/
theorem text_general_carried :
    let x := nearest 1999999 2
    x.rank < infinityRank ∧ x.text = "1e+06" ∧
      ∃ (v : ℚ) (e : ℤ) (body : Bytes), IsSixDigits x.magnitude v ∧ 10 ^ e ≤ v ∧ v < 10 ^ (e + 1) ∧
        Utf8.encode x.text = body ∧ Writes body v ∧ GeneralForm e body := by
  intro x
  have finite : x.rank < infinityRank := by decide +kernel
  have value : x.toRat = 1999999 / 2 := by decide +kernel
  refine ⟨finite, by decide +kernel, (text_general x finite).2 ?_⟩
  rintro ⟨k, whole, _⟩
  rw [value, div_eq_iff two_ne_zero] at whole
  have odd : (1999999 : ℤ) = k * 2 := by exact_mod_cast whole
  omega

end Binary64

end AwkCore
