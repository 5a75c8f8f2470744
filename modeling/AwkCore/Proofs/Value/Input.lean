import Mathlib.Data.List.DropRight
import AwkCore.Proofs.Numeral.Grammar
import AwkCore.Value

/-!
# Text from outside

A text counts as a number if it is a numeral with a sign or without, and nothing but space around it.
Any other text is a plain string. Either way the value counts as the number that the text begins with:
reading from the front and reading the text as a whole come to the same double.
-/
namespace AwkCore

namespace Numeral

/-- A numeral that may have a sign: whether the sign is a minus, and the number behind it. -/
inductive WritesSigned : Bytes → Bool → ℚ → Prop
  | unsigned {t : Bytes} {q : ℚ} (writes : Writes t q) : WritesSigned t false q
  | plus {t : Bytes} {q : ℚ} (writes : Writes t q) : WritesSigned (0x2b :: t) false q
  | minus {t : Bytes} {q : ℚ} (writes : Writes t q) : WritesSigned (0x2d :: t) true q

/-- Space and nothing else. -/
def AllSpace (s : Bytes) : Prop := ∀ b ∈ s, Byte.isSpace b = true

/-- A numeral between space, with a sign or without. -/
inductive WritesSpaced : Bytes → Bool → ℚ → Prop
  | intro {before t after : Bytes} {negative : Bool} {q : ℚ} (space : AllSpace before)
      (writes : WritesSigned t negative q) (space' : AllSpace after) :
    WritesSpaced (before ++ t ++ after) negative q

variable {s t after : Bytes} {b : Byte} {negative : Bool} {q a : ℚ} {k : ℤ} {n : Numeral}

/-- The bytes that numerals are made of. -/
def IsPart (b : Byte) : Prop := Byte.isDigit b = true ∨ b ∈ [0x2e, 0x65, 0x45, 0x2b, 0x2d]

instance (b : Byte) : Decidable (IsPart b) := inferInstanceAs (Decidable (_ ∨ _))

theorem IsPart.not_space (part : IsPart b) : Byte.isSpace b = false := by
  rw [← Bool.not_eq_true]
  intro space
  simp only [Byte.isSpace, Bool.or_eq_true, beq_iff_eq, or_assoc] at space
  rcases space with rfl | rfl | rfl | rfl | rfl <;> exact absurd part (by decide)

theorem IsRow.parts (row : IsRow s) : ∀ b ∈ s, IsPart b := fun b mem => .inl (row.each b mem)

theorem Mantissa.parts (mantissa : Mantissa s a) : ∀ b ∈ s, IsPart b := by
  have point : IsPart 0x2e := .inr (by decide)
  cases mantissa with
  | whole row => exact row.parts
  | pointed row => exact List.forall_mem_append.mpr ⟨row.parts, List.forall_mem_singleton.mpr point⟩
  | mixed row behind =>
    exact List.forall_mem_append.mpr ⟨row.parts, List.forall_mem_cons.mpr ⟨point, behind.parts⟩⟩
  | fraction behind => exact List.forall_mem_cons.mpr ⟨point, behind.parts⟩

theorem Exponent.parts (exponent : Exponent s k) : ∀ b ∈ s, IsPart b := by
  have mark {b : Byte} (marks : b = 0x65 ∨ b = 0x45) : IsPart b := by
    rcases marks with rfl | rfl <;> exact .inr (by decide)
  have sign : IsPart 0x2b ∧ IsPart 0x2d := ⟨.inr (by decide), .inr (by decide)⟩
  cases exponent with
  | absent => exact List.forall_mem_nil _
  | bare marks row => exact List.forall_mem_cons.mpr ⟨mark marks, row.parts⟩
  | plus marks row =>
    exact List.forall_mem_cons.mpr ⟨mark marks, List.forall_mem_cons.mpr ⟨sign.1, row.parts⟩⟩
  | minus marks row =>
    exact List.forall_mem_cons.mpr ⟨mark marks, List.forall_mem_cons.mpr ⟨sign.2, row.parts⟩⟩

theorem Writes.parts (writes : Writes t q) : ∀ b ∈ t, IsPart b := by
  cases writes with
  | intro mantissa exponent => exact List.forall_mem_append.mpr ⟨mantissa.parts, exponent.parts⟩

/-- A numeral starts with a digit or a point. -/
theorem Writes.head (writes : Writes t q) :
    ∃ b bs, t = b :: bs ∧ (Byte.isDigit b = true ∨ b = 0x2e) := by
  have first {ds : Bytes} (row : IsRow ds) (more : Bytes) :
      ∃ b bs, ds ++ more = b :: bs ∧ (Byte.isDigit b = true ∨ b = 0x2e) := by
    obtain ⟨d, ds, rfl⟩ := List.exists_cons_of_ne_nil row.nonempty
    exact ⟨d, ds ++ more, rfl, .inl (row.each d List.mem_cons_self)⟩
  cases writes with
  | intro mantissa exponent =>
    cases mantissa with
    | whole row => exact first row _
    | pointed row =>
      rw [List.append_assoc]
      exact first row _
    | mixed row =>
      rw [List.append_assoc]
      exact first row _
    | fraction => exact ⟨_, _, rfl, .inr rfl⟩

theorem WritesSigned.parts (writes : WritesSigned t negative q) : ∀ b ∈ t, IsPart b := by
  cases writes with
  | unsigned writes => exact writes.parts
  | plus writes => exact List.forall_mem_cons.mpr ⟨.inr (by decide), writes.parts⟩
  | minus writes => exact List.forall_mem_cons.mpr ⟨.inr (by decide), writes.parts⟩

theorem WritesSigned.ne_nil (writes : WritesSigned t negative q) : t ≠ [] := by
  cases writes with
  | unsigned writes =>
    obtain ⟨b, bs, rfl, _⟩ := writes.head
    exact List.cons_ne_nil b bs
  | plus => exact List.cons_ne_nil _ _
  | minus => exact List.cons_ne_nil _ _

theorem splitSign_of_ne (plus : b ≠ 0x2b) (minus : b ≠ 0x2d) (s : Bytes) :
    splitSign (b :: s) = (false, b :: s) := by
  unfold splitSign
  split
  · rename_i eq
    exact absurd (List.cons.inj eq).1 minus
  · rename_i eq
    exact absurd (List.cons.inj eq).1 plus
  · rfl

/-- The sign comes off the front of a signed numeral, whatever stands behind it. -/
theorem WritesSigned.split (writes : WritesSigned t negative q) :
    ∃ u, Writes u q ∧ ∀ more, splitSign (t ++ more) = (negative, u ++ more) := by
  cases writes with
  | unsigned writes =>
    refine ⟨t, writes, fun more => ?_⟩
    obtain ⟨b, bs, rfl, first⟩ := writes.head
    have no_sign : b ≠ 0x2b ∧ b ≠ 0x2d := by
      constructor
      · rintro rfl
        revert first
        decide
      · rintro rfl
        revert first
        decide
    exact splitSign_of_ne no_sign.1 no_sign.2 _
  | plus writes => exact ⟨_, writes, fun _ => rfl⟩
  | minus writes => exact ⟨_, writes, fun _ => rfl⟩

theorem writesSigned_of_split (s : Bytes) (writes : Writes (splitSign s).2 q) :
    WritesSigned s (splitSign s).1 q := by
  unfold splitSign at writes ⊢
  split at writes
  · exact .minus writes
  · exact .plus writes
  · exact .unsigned writes

/-- Space behind a numeral does not add to it. -/
theorem read?_append_space (writes : Writes t q) (space : AllSpace after) :
    ∃ n, read? (t ++ after) = some n ∧ read? t = some n ∧ n.length = t.length := by
  obtain ⟨n, read, longer⟩ := length_le_of_writes writes (List.prefix_append t after)
  -- A numeral that went on behind `t` would have space in it.
  have inside : n.length ≤ t.length := by
    by_contra beyond
    obtain ⟨j, length⟩ : ∃ j, n.length = t.length + (j + 1) :=
      ⟨n.length - t.length - 1, by omega⟩
    have whole := (writes_of_read? read).parts
    have fits := read?_length_le read
    rw [length, List.take_length_add_append] at whole
    rw [length, List.length_append] at fits
    cases after with
    | nil =>
      rw [List.length_nil] at fits
      omega
    | cons c after =>
      have solid := (whole c (by simp)).not_space
      rw [space c List.mem_cons_self] at solid
      contradiction
  have length := Nat.le_antisymm inside longer
  have alone := read?_take read length.le
  rw [List.take_left] at alone
  exact ⟨n, read, alone, length⟩

theorem dropWhile_space (space : AllSpace s) (writes : WritesSigned t negative q) (after : Bytes) :
    (s ++ (t ++ after)).dropWhile Byte.isSpace = t ++ after := by
  obtain ⟨b, bs, rfl⟩ := List.exists_cons_of_ne_nil writes.ne_nil
  have solid := (writes.parts b List.mem_cons_self).not_space
  rw [List.dropWhile_append_of_pos space, List.cons_append, List.dropWhile_cons, if_neg (by simp [solid])]

theorem trim_eq (s : Bytes) : trim s = (s.dropWhile Byte.isSpace).rdropWhile Byte.isSpace := rfl

/-- What is trimmed off a text is the space around it. -/
theorem trim_spaced {before : Bytes} (space : AllSpace before) (writes : WritesSigned t negative q)
    (space' : AllSpace after) : trim (before ++ (t ++ after)) = t := by
  have behind : ∀ b ∈ after.reverse, Byte.isSpace b = true :=
    fun b mem => space' b (List.mem_reverse.mp mem)
  have solid : ∀ ends : t ≠ [], ¬ Byte.isSpace (t.getLast ends) = true := fun ends => by
    simp [(writes.parts _ (List.getLast_mem ends)).not_space]
  rw [trim_eq, dropWhile_space space writes, List.rdropWhile, List.reverse_append,
    List.dropWhile_append_of_pos behind]
  exact List.rdropWhile_eq_self_iff.mpr solid

theorem trim_append (s : Bytes) : ∃ before after, AllSpace before ∧ AllSpace after ∧
    s = before ++ trim s ++ after := by
  refine ⟨s.takeWhile Byte.isSpace, (s.dropWhile Byte.isSpace).rtakeWhile Byte.isSpace,
    fun b mem => List.mem_takeWhile_imp mem, fun b mem => List.mem_rtakeWhile_imp mem, ?_⟩
  rw [trim_eq, List.append_assoc, List.rdropWhile_append_rtakeWhile,
    List.takeWhile_append_dropWhile]

/-- A numeral between space is read as a whole, and the front of the text reads as the same number. -/
theorem whole?_of_writes (writes : WritesSpaced s negative q) : ∃ x : Binary64, x.IsNearest q ∧
    whole? s = some (signed negative x) ∧ leading s = signed negative x := by
  obtain ⟨space, signed_writes, space'⟩ := writes
  rename_i before t after
  obtain ⟨u, writes, split⟩ := signed_writes.split
  obtain ⟨n, read_front, read, length⟩ := read?_append_space writes space'
  obtain ⟨m, read', _, number⟩ := read?_of_writes writes
  obtain rfl : n = m := Option.some.inj (read.symm.trans read')
  have body : splitSign t = (negative, u) := by simpa using split []
  refine ⟨n.number, number ▸ n.decimal.isNearest_nearest, ?_, ?_⟩
  · rw [List.append_assoc, whole?, trim_spaced space signed_writes space', body]
    simp only [read, length, if_true]
  · rw [List.append_assoc, leading, dropWhile_space space signed_writes, split]
    simp only [read_front]

/-- What is read as a whole is a numeral between space. -/
theorem writes_of_whole? {x : Binary64} (read : whole? s = some x) :
    ∃ negative q, WritesSpaced s negative q := by
  obtain ⟨before, after, space, space', split⟩ := trim_append s
  unfold whole? at read
  dsimp only at read
  split at read
  · rename_i n read_body
    obtain ⟨whole, _⟩ := Option.ite_none_right_eq_some.mp read
    have writes := writes_of_read? read_body
    rw [List.take_of_length_le whole.ge] at writes
    rw [split]
    exact ⟨_, _, .intro space (writesSigned_of_split _ writes) space'⟩
  · cases read

theorem isNaN_signed {x : Binary64} (number : x.isNaN = false) (negative : Bool) :
    (signed negative x).isNaN = false := by
  cases negative <;> exact number

theorem isNaN_number (n : Numeral) : n.number.isNaN = false := by
  exact decide_eq_false (Nat.not_lt.mpr n.decimal.isNearest_nearest.number)

theorem isNaN_leading (s : Bytes) : (leading s).isNaN = false := by
  unfold leading
  dsimp only
  split
  · rename_i n _
    exact isNaN_signed n.isNaN_number _
  · rfl

end Numeral

namespace Value

variable {α : Type}

/-- A text from outside is a numeric string exactly if it is a numeral between space, with a sign or
without; otherwise it is a plain string. It keeps its bytes. It counts as the number that the plain string
counts as, with the same sign even for zero: never a NaN, and for a numeral the double nearest to it, with
its sign. -/
theorem ofInput_detects (text : Bytes) :
    let v : Value Bytes α := ofInput text
    let numeric := ∃ negative q, Numeral.WritesSpaced text negative q
    ((∃ x, v = numericString text x) ↔ numeric) ∧ (v = string text ↔ ¬ numeric) ∧
      v.toText = text ∧ v.toNumber = (string text : Value Bytes α).toNumber ∧
      v.toNumber.isNaN = false ∧
      ∀ negative q, Numeral.WritesSpaced text negative q →
        ∃ x : Binary64, x.IsNearest q ∧ v.toNumber = Numeral.signed negative x := by
  intro v numeric
  by_cases is : numeric
  · obtain ⟨negative, q, writes⟩ := id is
    obtain ⟨x, _, read, leading⟩ := Numeral.whole?_of_writes writes
    have value : v = numericString text (Numeral.leading text) := by
      rw [leading]
      simp only [v, ofInput, read]
    rw [value]
    refine ⟨iff_of_true ⟨_, rfl⟩ is, iff_of_false (by simp) (not_not.mpr is), rfl, rfl,
      Numeral.isNaN_leading text, fun negative' q' writes' => ?_⟩
    obtain ⟨y, near, _, leading'⟩ := Numeral.whole?_of_writes writes'
    exact ⟨y, near, leading'⟩
  · have none : Numeral.whole? text = none := by
      rw [Option.eq_none_iff_forall_ne_some]
      exact fun x read => is (Numeral.writes_of_whole? read)
    have value : v = string text := by simp only [v, ofInput, none]
    rw [value]
    refine ⟨iff_of_false (by simp) is, iff_of_true rfl is, rfl, rfl, Numeral.isNaN_leading text, ?_⟩
    exact fun negative q writes => absurd ⟨negative, q, writes⟩ is

example : (ofInput (ascii "\t-0 ") : Value Bytes Unit) =
    numericString (ascii "\t-0 ") Binary64.zero.negate := by decide +kernel

end Value

end AwkCore
