import AwkCore.Proofs.Scanner.Written
import AwkCore.Regex.Quoted
import Mathlib.Computability.Language
import Mathlib.Data.Bool.AllAny
import Mathlib.Data.List.Infix

/-!
# Rows of atoms

An atom is how a pattern writes a single byte, and a row is one atom after another. Of an engine it is
assumed that it takes an atom for its byte, and that it finds a pattern which it compiles where a text
that the pattern means stands. A row then means the bytes of its atoms and nothing else.
-/
namespace AwkCore

namespace Pattern

/-- The atoms of a byte: the byte as it is if it is no sign of regular expressions, a sign behind a
backslash, and any byte in hexadecimal digits. -/
inductive Atom : Bytes → Byte → Prop
  | plain {b : Byte} (is_ascii : Byte.isAscii b = true) (no_sign : b ∉ Byte.regexSigns)
      (other : b ≠ Byte.backslash) : Atom [b] b
  | escaped {b : Byte} (sign : b ∈ Byte.regexSigns ∨ b = Byte.backslash) :
      Atom [Byte.backslash, b] b
  | digits (b : Byte) : Atom (hexEscape b) b

/-- A pattern that is one atom after another, with the bytes that they write. -/
inductive Row : Bytes → Bytes → Prop
  | nil : Row [] []
  | cons {a p s : Bytes} {b : Byte} (atom : Atom a b) (row : Row p s) : Row (a ++ p) (b :: s)

/-- What a row of atoms means. -/
def RowMeans (p : Bytes) (l : Language Byte) : Prop := ∃ s, Row p s ∧ l = {s}

variable {p s : Bytes}

/-- A byte is a sign that a backslash stands before, a plain byte of ASCII, or a byte above it. -/
theorem atom_cases (b : Byte) :
    ((b ∈ Byte.regexSigns ∨ b = Byte.backslash) ∧ Byte.isAscii b = true ∧
        atom b = [Byte.backslash, b] ∧ b.plainly = [Byte.backslash, b]) ∨
      (¬ (b ∈ Byte.regexSigns ∨ b = Byte.backslash) ∧ Byte.isAscii b = true ∧ atom b = [b] ∧
        b.plainly = [b]) ∨
      (Byte.isAscii b = false ∧ b ≠ Byte.backslash ∧ atom b = hexEscape b ∧ b.plainly = [b]) := by
  have signs : ∀ b ∈ Byte.backslash :: Byte.regexSigns, Byte.isAscii b = true :=
    List.all_iff_forall_prop.mp (by decide)
  by_cases sign : b ∈ Byte.regexSigns ∨ b = Byte.backslash
  · have is_ascii := signs b (List.mem_cons.mpr sign.symm)
    exact .inl ⟨sign, is_ascii, by simp [atom, Byte.plainly, is_ascii, sign],
      if_pos sign⟩
  · cases is_ascii : Byte.isAscii b with
    | true => exact .inr (.inl ⟨sign, rfl, by simp [atom, Byte.plainly, is_ascii, sign], if_neg sign⟩)
    | false => exact .inr (.inr ⟨rfl, fun same => sign (.inr same), by simp [atom, is_ascii],
        if_neg sign⟩)

theorem inAsciiFrom_plainly (b : Byte) (w : Bytes) :
    inAsciiFrom false (b.plainly ++ w) = atom b ++ inAsciiFrom false w := by
  rcases atom_cases b with ⟨_, is_ascii, atom, plainly⟩ | ⟨other, is_ascii, atom, plainly⟩ |
    ⟨above, other, atom, plainly⟩
  · simp [atom, plainly, inAsciiFrom, is_ascii]
  · simp [atom, plainly, inAsciiFrom, is_ascii, (not_or.mp other).2]
  · simp [atom, plainly, inAsciiFrom, above, other]

theorem inAscii_plainly (s : Bytes) : inAscii (s.flatMap Byte.plainly) = s.flatMap atom := by
  rw [inAscii]
  induction s with
  | nil => rfl
  | cons b s ih => rw [List.flatMap_cons, inAsciiFrom_plainly, ih, List.flatMap_cons]

theorem atom_writes (b : Byte) : Atom (atom b) b := by
  rcases atom_cases b with ⟨sign, _, atom, _⟩ | ⟨plain, is_ascii, atom, _⟩ | ⟨_, _, atom, _⟩ <;>
    rw [atom]
  · exact .escaped sign
  · exact .plain is_ascii (not_or.mp plain).1 (not_or.mp plain).2
  · exact .digits b

theorem row_atoms (s : Bytes) : Row (s.flatMap atom) s := by
  induction s with
  | nil => exact .nil
  | cons b s ih => exact .cons (atom_writes b) ih

theorem singleton_mul_singleton (b : Byte) (s : Bytes) :
    ({[b]} : Language Byte) * {s} = {b :: s} := Set.image2_singleton

end Pattern

namespace Engine

open Pattern (Atom Row RowMeans)

/-- What is assumed of an engine, for patterns that mean a set of texts. -/
structure Follows (engine : Engine) (Means : Bytes → Language Byte → Prop) : Prop where
  /-- The empty pattern means the empty text. -/
  empty : Means [] 1
  /-- An atom in front of a row means its byte in front of what the row means. -/
  atom : ∀ {a p s : Bytes} {b : Byte} {l : Language Byte}, Atom a b → Row p s → Means p l →
    Means (a ++ p) ({[b]} * l)
  /-- A pattern that means something is well formed. -/
  wellFormed : ∀ {p : Bytes} {l : Language Byte}, Means p l →
    engine.refusal? p ≠ some .malformed
  /-- A pattern that is compiled is found in a subject when a text that it means stands there. -/
  found : ∀ {p : Bytes} {l : Language Byte}, Means p l → engine.refusal? p = none →
    ∀ subject, engine.finds p subject = true ↔ ∃ w ∈ l, w <:+: subject

variable {engine : Engine} {Means : Bytes → Language Byte → Prop} {p s : Bytes}

theorem Follows.row (follows : engine.Follows Means) (row : Row p s) : Means p {s} := by
  induction row with
  | nil => exact follows.empty
  | cons atom row ih =>
    have means := follows.atom atom row ih
    rwa [Pattern.singleton_mul_singleton] at means

theorem isSome_compile?_iff {pattern : Bytes} : (engine.compile? pattern).isSome ↔
    engine.refusal? (Pattern.inAscii pattern) = none := by
  simp [compile?]

theorem source_of_compile? {pattern : Bytes} {compiled : Pattern}
    (ok : engine.compile? pattern = some compiled) : compiled.source = Pattern.inAscii pattern := by
  simp only [compile?, Option.ite_none_right_eq_some, Option.some.injEq] at ok
  exact ok.2 ▸ rfl

/-- A row is compiled unless it is too large. -/
theorem Follows.isSome_compile?_iff (follows : engine.Follows Means) {pattern : Bytes}
    (row : Row (Pattern.inAscii pattern) s) :
    (engine.compile? pattern).isSome ↔
      engine.refusal? (Pattern.inAscii pattern) ≠ some .tooLarge := by
  have wellFormed := follows.wellFormed (follows.row row)
  rw [Engine.isSome_compile?_iff]
  rcases refusal : engine.refusal? (Pattern.inAscii pattern) with _ | _ | _
  · exact iff_of_true rfl nofun
  · exact absurd refusal wellFormed
  · exact iff_of_false nofun fun other => other rfl

/-- A row that is compiled is found where its bytes stand. -/
theorem Follows.isMatch (follows : engine.Follows Means) {pattern : Bytes} {compiled : Pattern}
    (row : Row (Pattern.inAscii pattern) s) (ok : engine.compile? pattern = some compiled)
    (subject : Bytes) : engine.isMatch compiled subject = true ↔ s <:+: subject := by
  have admitted := Engine.isSome_compile?_iff.mp (Option.isSome_of_eq_some ok)
  rw [Engine.isMatch, source_of_compile? ok, follows.found (follows.row row) admitted]
  exact ⟨fun ⟨w, same, stands⟩ => same ▸ stands, fun stands => ⟨s, rfl, stands⟩⟩

/-- To meet the assumption it is enough to treat rows as it says. -/
theorem follows_of_rows (wellFormed : ∀ {p s}, Row p s → engine.refusal? p ≠ some .malformed)
    (found : ∀ {p s}, Row p s → engine.refusal? p = none →
      ∀ subject, engine.finds p subject = true ↔ s <:+: subject) : engine.Follows RowMeans := by
  constructor
  case empty => exact ⟨[], .nil, rfl⟩
  case atom =>
    rintro a p _ b _ atom _ ⟨s, row, rfl⟩
    exact ⟨b :: s, .cons atom row, Pattern.singleton_mul_singleton b s⟩
  case wellFormed =>
    rintro p _ ⟨s, row, rfl⟩
    exact wellFormed row
  case found =>
    rintro p _ ⟨s, row, rfl⟩ compiled subject
    rw [found row compiled subject]
    exact ⟨fun stands => ⟨s, rfl, stands⟩, fun ⟨w, same, stands⟩ => same ▸ stands⟩

end Engine

namespace Pattern

/-- Read a row of atoms. -/
def readRow? : Bytes → Option Bytes
  | [] => some []
  | b :: p =>
    if b = Byte.backslash then
      match p with
      | [] => none
      | c :: p =>
        if c ∈ Byte.regexSigns ∨ c = Byte.backslash then (readRow? p).map (c :: ·)
        else if c = 0x78 then
          match p with
          | high :: low :: p => do
            let code := 16 * (← Byte.hexValue? high) + (← Byte.hexValue? low)
            (readRow? p).map (code.toUInt8 :: ·)
          | _ => none
        else none
    else if Byte.isAscii b ∧ b ∉ Byte.regexSigns then (readRow? p).map (b :: ·)
    else none

theorem readRow?_atom {a : Bytes} {b : Byte} (atom : Atom a b) (p : Bytes) :
    readRow? (a ++ p) = (readRow? p).map (b :: ·) := by
  cases atom with
  | plain is_ascii no_sign other =>
    rw [List.singleton_append, readRow?.eq_def]
    simp [is_ascii, no_sign, other]
  | escaped sign =>
    rw [List.cons_append, List.singleton_append, readRow?.eq_def]
    simp [sign]
  | digits b =>
    have lt := b.toNat_lt
    have high := Byte.hexValue?_hexDigit (b.toNat / 16) (by omega)
    have low := Byte.hexValue?_hexDigit (b.toNat % 16) (by omega)
    have code : (16 * (b.toNat / 16) + b.toNat % 16).toUInt8 = b := by
      rw [Nat.div_add_mod]
      exact UInt8.ofNat_toNat
    have letter : ¬ (0x78 ∈ Byte.regexSigns ∨ (0x78 : Byte) = Byte.backslash) := by decide
    have split : hexEscape b ++ p = Byte.backslash :: 0x78 :: Byte.hexDigit (b.toNat / 16) ::
      Byte.hexDigit (b.toNat % 16) :: p := rfl
    rw [split, readRow?.eq_def]
    simp only [if_neg letter, if_true, high, low, Option.bind_eq_bind, Option.bind_some, code]

theorem Row.read {p s : Bytes} (row : Row p s) : readRow? p = some s := by
  induction row with
  | nil => rfl
  | cons atom _ ih => rw [readRow?_atom atom, ih, Option.map_some]

end Pattern

/-- The least engine: it compiles rows of atoms, up to a length, and nothing else. -/
def Engine.rows (limit : ℕ) : Engine where
  refusal? p :=
    match Pattern.readRow? p with
    | none => some .malformed
    | some s => if s.length ≤ limit then none else some .tooLarge
  finds p subject := (Pattern.readRow? p).any (· <:+: subject)

theorem Engine.rows_refusal {limit : ℕ} {p s : Bytes} (row : Pattern.Row p s) :
    (rows limit).refusal? p = if s.length ≤ limit then none else some .tooLarge := by
  simp only [rows, row.read]

theorem Engine.rows_follows (limit : ℕ) : (rows limit).Follows Pattern.RowMeans := by
  apply follows_of_rows
  case wellFormed =>
    intro p s row
    rw [rows_refusal row]
    split <;> simp
  case found =>
    intro p s row _ subject
    simp [rows, row.read]

end AwkCore
