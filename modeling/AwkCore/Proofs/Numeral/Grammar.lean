import Mathlib.Data.List.Induction
import Mathlib.Data.List.TakeWhile
import Mathlib.Data.Nat.Digits.Defs
import AwkCore.Proofs.Binary64.Nearest
import AwkCore.Proofs.Numeral

/-!
# The grammar of numerals

A numeral is a mantissa and an exponent, which may be absent. `Writes` says which texts are numerals
and which number each of them writes, one constructor for each form of a part. A reader takes the
longest numeral at the front of a text and gives the double nearest to the number.
-/
namespace AwkCore.Numeral

/-- One digit or more. -/
structure IsRow (ds : Bytes) : Prop where
  each : ∀ b ∈ ds, Byte.isDigit b = true
  nonempty : ds ≠ []

/-- The number that digits write in base ten. -/
def natural (ds : Bytes) : ℕ := Nat.ofDigits 10 (ds.reverse.map Byte.digitValue)

/-- What digits behind a point add to the number. -/
def fractional (ds : Bytes) : ℚ := natural ds / 10 ^ ds.length

/-- Digits with at most one point among them, and the number that they write. -/
inductive Mantissa : Bytes → ℚ → Prop
  | whole {ds : Bytes} (row : IsRow ds) : Mantissa ds (natural ds)
  | pointed {ds : Bytes} (row : IsRow ds) : Mantissa (ds ++ [0x2e]) (natural ds)
  | mixed {ds fs : Bytes} (row : IsRow ds) (behind : IsRow fs) :
    Mantissa (ds ++ 0x2e :: fs) (natural ds + fractional fs)
  | fraction {fs : Bytes} (behind : IsRow fs) : Mantissa (0x2e :: fs) (fractional fs)

/-- A mark with digits behind it and perhaps a sign between, or nothing; and the power of ten. -/
inductive Exponent : Bytes → ℤ → Prop
  | absent : Exponent [] 0
  | bare {mark : Byte} {ds : Bytes} (marks : mark = 0x65 ∨ mark = 0x45) (row : IsRow ds) :
    Exponent (mark :: ds) (natural ds)
  | plus {mark : Byte} {ds : Bytes} (marks : mark = 0x65 ∨ mark = 0x45) (row : IsRow ds) :
    Exponent (mark :: 0x2b :: ds) (natural ds)
  | minus {mark : Byte} {ds : Bytes} (marks : mark = 0x65 ∨ mark = 0x45) (row : IsRow ds) :
    Exponent (mark :: 0x2d :: ds) (-natural ds)

/-- The numerals, each with the number that it writes. -/
inductive Writes : Bytes → ℚ → Prop
  | intro {m e : Bytes} {a : ℚ} {k : ℤ} (mantissa : Mantissa m a) (exponent : Exponent e k) :
    Writes (m ++ e) (a * 10 ^ k)

variable {s t ds fs e : Bytes} {q : ℚ} {k : ℤ} {n : Numeral}

theorem value_eq_natural (ds : Bytes) : value ds = natural ds := by
  induction ds using List.reverseRecOn with
  | nil => rfl
  | append_singleton ds d ih =>
    rw [value, List.foldl_append, ← value, ih, natural, natural, List.reverse_concat,
      List.map_cons, Nat.ofDigits_cons]
    exact Nat.add_comm _ _

theorem natural_append (ds fs : Bytes) :
    natural (ds ++ fs) = natural ds * 10 ^ fs.length + natural fs := by
  rw [natural, List.reverse_append, List.map_append, Nat.ofDigits_append, List.length_map,
    List.length_reverse, ← natural, ← natural, Nat.add_comm, Nat.mul_comm]

theorem natural_nil : natural [] = 0 := rfl

theorem fractional_nil : fractional [] = 0 := by simp [fractional, natural_nil]

/-- Nothing that goes on with digits. -/
def Stops (e : Bytes) : Prop := ∀ b, e.head? = some b → Byte.isDigit b = false

theorem digits_append (all : ∀ b ∈ ds, Byte.isDigit b = true) (stops : Stops e) :
    digits (ds ++ e) = ds := by
  rw [digits, List.takeWhile_append_of_pos all]
  cases e with
  | nil => exact List.append_nil _
  | cons b e => rw [List.takeWhile_cons, stops b rfl, if_neg Bool.false_ne_true, List.append_nil]

theorem IsRow.digits_eq (row : IsRow ds) : digits ds = ds := by
  simpa using digits_append row.each (e := []) (fun b head => nomatch head)

theorem isRow_digits (some : digits s ≠ []) : IsRow (digits s) :=
  ⟨fun _ mem => List.mem_takeWhile_imp mem, some⟩

theorem take_digits (s : Bytes) : s.take (digits s).length = digits s :=
  (List.prefix_iff_eq_take.mp (List.takeWhile_prefix _)).symm

/-- An exponent starts with its mark. -/
theorem Exponent.head (exponent : Exponent e k) {b : Byte} (head : e.head? = some b) :
    b = 0x65 ∨ b = 0x45 := by
  cases exponent with
  | absent => cases head
  | bare marks => exact Option.some.inj head ▸ marks
  | plus marks => exact Option.some.inj head ▸ marks
  | minus marks => exact Option.some.inj head ▸ marks

theorem exponentPart_eq (exponent : Exponent e k) : exponentPart e = (k, e.length) := by
  have row_value {ds : Bytes} (row : IsRow ds) : ¬ ds.isEmpty ∧ value ds = natural ds :=
    ⟨by simpa using row.nonempty, value_eq_natural ds⟩
  cases exponent with
  | absent => rfl
  | @bare mark ds marks row =>
    obtain ⟨some, number⟩ := row_value row
    obtain ⟨d, ds, rfl⟩ := List.exists_cons_of_ne_nil row.nonempty
    have digit := row.each d List.mem_cons_self
    have plus : d ≠ 0x2b := by
      rintro rfl
      exact absurd digit (by decide)
    have minus : d ≠ 0x2d := by
      rintro rfl
      exact absurd digit (by decide)
    have all : exponentDigits d ds = d :: ds := by
      rw [exponentDigits, if_neg (by simp [plus, minus]), row.digits_eq]
    rw [exponentPart_cons, if_pos marks, exponentBody?_cons, all, if_neg some, number]
    simp [signLength, plus, minus]
  | @plus mark ds marks row =>
    obtain ⟨some, number⟩ := row_value row
    have all : exponentDigits 0x2b ds = ds := row.digits_eq
    rw [exponentPart_cons, if_pos marks, exponentBody?_cons, all, if_neg some, number]
    simp [signLength, Nat.add_comm]
  | @minus mark ds marks row =>
    obtain ⟨some, number⟩ := row_value row
    have all : exponentDigits 0x2d ds = ds := row.digits_eq
    rw [exponentPart_cons, if_pos marks, exponentBody?_cons, all, if_neg some, number]
    simp [signLength, Nat.add_comm]

/-- What is read as an exponent is one. -/
theorem exponent_take (s : Bytes) : Exponent (s.take (exponentPart s).2) (exponentPart s).1 := by
  cases s with
  | nil => exact .absent
  | cons mark s =>
    rw [exponentPart_cons]
    split
    case isFalse => exact .absent
    case isTrue marks =>
    cases s with
    | nil => exact .absent
    | cons b s =>
      rw [exponentBody?_cons]
      split
      case isTrue => exact .absent
      case isFalse some =>
        have some : exponentDigits b s ≠ [] := by simpa using some
        rw [value_eq_natural, Option.elim_some, List.take_succ_cons]
        by_cases plus : b = 0x2b
        · subst plus
          have here : exponentDigits 0x2b s = digits s := rfl
          have sign : signLength 0x2b = 1 := rfl
          have no_minus : (0x2b : Byte) ≠ 0x2d := by decide
          rw [here] at some ⊢
          rw [sign, if_neg no_minus, Nat.add_comm, List.take_succ_cons, take_digits]
          exact .plus marks (isRow_digits some)
        by_cases minus : b = 0x2d
        · subst minus
          have here : exponentDigits 0x2d s = digits s := rfl
          have sign : signLength 0x2d = 1 := rfl
          rw [here] at some ⊢
          rw [sign, if_pos rfl, Nat.add_comm, List.take_succ_cons, take_digits]
          exact .minus marks (isRow_digits some)
        · have unsigned : ¬ (b = 0x2b ∨ b = 0x2d) := by simp [plus, minus]
          have here : exponentDigits b s = digits (b :: s) := if_neg unsigned
          rw [here] at some ⊢
          rw [signLength, if_neg unsigned, if_neg minus, Nat.zero_add, take_digits]
          exact .bare marks (isRow_digits some)

/-- A mantissa is read as digits and a fraction, one of which has a digit. -/
theorem Mantissa.read {m : Bytes} {a : ℚ} (mantissa : Mantissa m a) (exponent : Exponent e k) :
    ∃ ds fs j, digits (m ++ e) = ds ∧ fractionPart ((m ++ e).drop ds.length) = (fs, j) ∧
      ds.length + j = m.length ∧ (ds.isEmpty && fs.isEmpty) = false ∧
      a = natural ds + fractional fs := by
  have stops : Stops e := fun b head => by
    rcases exponent.head head with rfl | rfl <;> rfl
  have point_stops (fs : Bytes) : Stops (0x2e :: fs) := fun b head => by
    obtain rfl := Option.some.inj head
    rfl
  have no_point : fractionPart e = ([], 0) := by
    cases e with
    | nil => rfl
    | cons b e =>
      rw [fractionPart_cons, if_neg]
      rintro rfl
      exact absurd (exponent.head rfl) (by decide)
  -- Behind digits comes a point with digits, each of which may be absent.
  have pointed {ds fs : Bytes} (ds_each : ∀ b ∈ ds, Byte.isDigit b = true)
      (fs_each : ∀ b ∈ fs, Byte.isDigit b = true) (some : (ds.isEmpty && fs.isEmpty) = false) :
      ∃ ds' fs' j, digits (ds ++ 0x2e :: (fs ++ e)) = ds' ∧
        fractionPart ((ds ++ 0x2e :: (fs ++ e)).drop ds'.length) = (fs', j) ∧
        ds'.length + j = ds.length + (fs.length + 1) ∧ (ds'.isEmpty && fs'.isEmpty) = false ∧
        (natural ds + fractional fs : ℚ) = natural ds' + fractional fs' := by
    refine ⟨ds, fs, fs.length + 1, digits_append ds_each (point_stops _), ?_, rfl, some, rfl⟩
    rw [List.drop_left, fractionPart_cons, if_pos rfl, digits_append fs_each stops]
  cases mantissa with
  | whole row =>
    refine ⟨m, [], 0, digits_append row.each stops, ?_, rfl, ?_, by simp [fractional_nil]⟩
    · rw [List.drop_left, no_point]
    · simp [row.nonempty]
  | @pointed ds row =>
    have read := pointed row.each (List.forall_mem_nil _) (by simp [row.nonempty])
    simpa [fractional_nil] using read
  | @mixed ds fs row behind =>
    have read := pointed row.each behind.each (by simp [row.nonempty])
    simpa using read
  | @fraction fs behind =>
    have read := pointed (List.forall_mem_nil _) behind.each (by simp [behind.nonempty])
    simpa [natural_nil] using read

/-- Digits and a fraction that are read, one of which has a digit, are a mantissa. -/
theorem mantissa_take (s : Bytes)
    (some : ((digits s).isEmpty && (fractionPart (s.drop (digits s).length)).1.isEmpty) = false) :
    Mantissa (s.take ((digits s).length + (fractionPart (s.drop (digits s).length)).2))
      (natural (digits s) + fractional (fractionPart (s.drop (digits s).length)).1) := by
  rw [List.take_add, take_digits]
  have whole (row : digits s ≠ []) :
      Mantissa (digits s ++ []) (natural (digits s) + fractional []) := by
    rw [List.append_nil, fractional_nil, add_zero]
    exact .whole (isRow_digits row)
  cases rest : s.drop (digits s).length with
  | nil =>
    rw [rest] at some
    exact whole (by simpa [fractionPart] using some)
  | cons b rest' =>
    rw [rest, fractionPart_cons] at some
    rw [fractionPart_cons]
    by_cases point : b = 0x2e
    · subst point
      rw [if_pos rfl] at some ⊢
      rw [List.take_succ_cons, take_digits]
      by_cases no_whole : digits s = []
      · have behind : digits rest' ≠ [] := by simpa [no_whole] using some
        rw [no_whole, natural_nil, Nat.cast_zero, zero_add]
        exact .fraction (isRow_digits behind)
      by_cases no_fraction : digits rest' = []
      · rw [no_fraction, fractional_nil, add_zero]
        exact .pointed (isRow_digits no_whole)
      · exact .mixed (isRow_digits no_whole) (isRow_digits no_fraction)
    · rw [if_neg point] at some ⊢
      exact whole (by simpa using some)

theorem toRat_decimal (n : Numeral) :
    n.decimal.toRat = (natural n.whole + fractional n.fraction) * 10 ^ n.exponent := by
  have pos : (0 : ℚ) < 10 ^ n.fraction.length := pow_pos (by norm_num) _
  rw [decimal, Decimal.toRat, value_eq_natural, natural_append, zpow_sub₀ (by norm_num),
    zpow_natCast, fractional]
  push_cast
  field_simp

theorem read?_eq {fs : Bytes} {j i : ℕ} (whole : digits s = ds)
    (point : fractionPart (s.drop ds.length) = (fs, j))
    (mark : exponentPart (s.drop (ds.length + j)) = (k, i))
    (some : (ds.isEmpty && fs.isEmpty) = false) :
    read? s = Option.some ⟨ds, fs, k, ds.length + j + i⟩ := by
  unfold read?
  simp only [whole, point, mark, some, Bool.false_eq_true, if_false]

/-- A numeral is read to its end. -/
theorem read?_of_writes (writes : Writes t q) :
    ∃ n, read? t = some n ∧ n.length = t.length ∧ n.decimal.toRat = q := by
  obtain ⟨mantissa, exponent⟩ := writes
  rename_i m e a k
  obtain ⟨ds, fs, j, whole, point, length, some, number⟩ := mantissa.read exponent
  have mark : exponentPart ((m ++ e).drop (ds.length + j)) = (k, e.length) := by
    rw [length, List.drop_left, exponentPart_eq exponent]
  refine ⟨_, read?_eq whole point mark some, ?_, ?_⟩
  · rw [length, List.length_append]
  · rw [toRat_decimal, number]

/-- What is read is a numeral. -/
theorem writes_of_read? (read : read? s = some n) : Writes (s.take n.length) n.decimal.toRat := by
  unfold read? at read
  dsimp only at read
  split at read
  · cases read
  · rename_i some
    obtain rfl := Option.some.inj read
    rw [toRat_decimal, List.take_add]
    exact .intro (mantissa_take s (by simpa using some)) (exponent_take _)

/-- A numeral at the front of a text is no longer than the one that is read. -/
theorem length_le_of_writes (writes : Writes t q) (front : t <+: s) :
    ∃ n, read? s = some n ∧ t.length ≤ n.length := by
  obtain ⟨m, read_t, length, _⟩ := read?_of_writes writes
  rw [List.prefix_iff_eq_take.mp front] at read_t
  cases read : read? s with
  | none => rw [read?_take_none read] at read_t; cases read_t
  | some n =>
    refine ⟨n, rfl, ?_⟩
    rcases Nat.le_total n.length t.length with le | ge
    · rw [read?_take read le] at read_t
      rw [Option.some.inj read_t, length]
    · exact ge

/-- A text is read as a numeral exactly if it begins with one. What is read is the longest numeral
that it begins with, which is read again when it stands alone. The number is the double nearest to
the one that is written. -/
theorem read?_longest (s : Bytes) :
    ((∃ n, read? s = some n) ↔ ∃ t q, t <+: s ∧ Writes t q) ∧
      ∀ n, read? s = some n → n.length ≤ s.length ∧
        (∃ q, Writes (s.take n.length) q ∧ ∀ x : Binary64, x.IsNearest q ↔ x = n.number) ∧
        (∀ t q, t <+: s → Writes t q → t.length ≤ n.length) ∧
        read? (s.take n.length) = some n := by
  refine ⟨⟨?_, ?_⟩, fun n read => ⟨read?_length_le read, ?_, ?_, read?_take read le_rfl⟩⟩
  · rintro ⟨n, read⟩
    exact ⟨_, _, List.take_prefix _ _, writes_of_read? read⟩
  · rintro ⟨t, q, front, writes⟩
    obtain ⟨n, read, _⟩ := length_le_of_writes writes front
    exact ⟨n, read⟩
  · have nearest := n.decimal.isNearest_nearest
    refine ⟨_, writes_of_read? read, fun x => ?_⟩
    exact ⟨fun near => near.unique nearest, fun eq => eq ▸ nearest⟩
  · intro t q front writes
    obtain ⟨m, read', le⟩ := length_le_of_writes writes front
    obtain rfl := Option.some.inj (read.symm.trans read')
    exact le

/-- An exponent mark without digits is left over. -/
theorem read?_longest_mark :
    let s := ascii "1.5e+.2"
    ∃ n, read? s = some n ∧ n.length = 3 ∧ n.number = Binary64.nearest 3 2 ∧
      ∀ t q, t <+: s → Writes t q → t.length ≤ n.length := by
  intro s
  obtain ⟨n, read, length, number⟩ : ∃ n, read? s = some n ∧ n.length = 3 ∧
      n.number = Binary64.nearest 3 2 := ⟨_, rfl, rfl, by decide +kernel⟩
  exact ⟨n, read, length, number, ((read?_longest s).2 n read).2.2.1⟩

end AwkCore.Numeral
