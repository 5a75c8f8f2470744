import Mathlib.Data.Bool.AllAny
import AwkCore.Proofs.Program.Places
import AwkCore.Proofs.Scanner.Written

/-!
# Spellings are read as the bytes they stand for

Whatever follows a spelling in a string literal, reading uses exactly the spelling, and it gives the byte
that is meant. So a literal made of pieces stands for the bytes of its pieces.
-/
namespace AwkCore

namespace Byte

theorem octalDigit_class : ∀ n < 8, isOctalDigit (octalDigit n) = true ∧
    digitValue (octalDigit n) = n ∧ Scanner.namedEscape? (octalDigit n) = none := by
  decide

theorem isDigit_of_isOctalDigit {b : Byte} (octal : isOctalDigit b = true) : isDigit b = true := by
  simp only [isOctalDigit, isDigit, UInt8.le_iff_toNat_le, Bool.and_eq_true,
    decide_eq_true_eq] at octal ⊢
  exact ⟨octal.1, octal.2.trans (by decide)⟩

/-- A byte that is seen and does not end a line. -/
def Inner (b : Byte) : Prop := b ≠ newline ∧ b ≠ carriageReturn

instance (b : Byte) : Decidable b.Inner := inferInstanceAs (Decidable (_ ∧ _))

theorem Inner.of_class (p : Byte → Bool) {b : Byte} (is : p b = true)
    (others : p newline = false ∧ p carriageReturn = false) : b.Inner := by
  constructor
  · rintro rfl
    exact absurd is (by simp [others.1])
  · rintro rfl
    exact absurd is (by simp [others.2])

theorem inner_hexDigitIn {n : ℕ} (digit : n < 16) (capital : Bool) :
    (hexDigitIn capital n).Inner :=
  .of_class (fun b => (hexValue? b).isSome) (by simp [hexValue?_hexDigitIn n digit]) (by decide)

theorem inner_octalDigit {n : ℕ} (digit : n < 8) : (octalDigit n).Inner :=
  .of_class isOctalDigit (octalDigit_class n digit).1 (by decide)

theorem escapedIn_inner (high low : Bool) (b : Byte) : ∀ c ∈ b.escapedIn high low, c.Inner := by
  have slash : backslash.Inner := by decide
  have mark : Inner 0x78 := by decide
  have lt := b.toNat_lt
  have high_inner := inner_hexDigitIn (n := b.toNat / 16) (by omega) high
  have low_inner := inner_hexDigitIn (n := b.toNat % 16) (by omega) low
  simp [escapedIn, slash, mark, high_inner, low_inner]

theorem escapeNames_inner : ∀ e ∈ escapeNames, e.1.Inner :=
  List.all_iff_forall_prop.mp (by decide)

end Byte

theorem Spelling.written_inner (s : Spelling) : ∀ b ∈ s.written, b.Inner := by
  have slash : Byte.backslash.Inner := by decide
  cases s with
  | plain b usual =>
    simp only [List.mem_cons, not_or] at usual
    exact List.forall_mem_singleton.mpr ⟨usual.2.2.1, usual.2.2.2.1⟩
  | named c b names => simpa [written, slash] using Byte.escapeNames_inner _ names
  | hexadecimal high low b => exact Byte.escapedIn_inner high low b
  | octal code =>
    have first := Byte.inner_octalDigit (n := code / 64) (by omega)
    have second := Byte.inner_octalDigit (n := code / 8 % 8) (by omega)
    have third := Byte.inner_octalDigit (n := code % 8) (by omega)
    simp [written, slash, first, second, third]
  | unnamed b meaningless =>
    have other := meaningless.2.1
    simp only [List.mem_cons, not_or] at other
    have inner : b.Inner := ⟨other.2.1, other.2.2.1⟩
    simp [written, slash, inner]

namespace Scanner

variable {d : Delimiter} {l : Location} {g : Glyph} {gs : List Glyph}
  {more : List (Byte × Location)}

theorem spot_eq_cons {b : Byte} {w : List (Byte × Location)}
    (spots : gs.map Glyph.spot = (b, l) :: w) :
    ∃ g hs, gs = g :: hs ∧ g.byte = b ∧ g.location = l ∧ hs.map Glyph.spot = w := by
  obtain ⟨g, hs, rfl, spot, behind⟩ := List.map_eq_cons_iff.mp spots
  obtain ⟨byte, place⟩ := Prod.mk.inj spot
  exact ⟨g, hs, rfl, byte, place, behind⟩

theorem bytesOf_spots {w : Bytes} (spots : gs.map Glyph.spot = w.map (·, l) ++ more) :
    bytesOf gs = w ++ more.map Prod.fst := by
  have bytes := congrArg (List.map Prod.fst) spots
  rw [List.map_append, List.map_map, List.map_map] at bytes
  exact bytes.trans (congrArg (· ++ _) (List.map_id w))

theorem Literal.prepend_prepend (bytes bytes' : Bytes) (warnings warnings' : List Diagnostic)
    (read : Literal) : (read.prepend bytes' warnings').prepend bytes warnings =
      read.prepend (bytes ++ bytes') (warnings ++ warnings') := by
  simp [prepend]

theorem namedEscape?_of_mem : ∀ e ∈ Byte.escapeNames, namedEscape? e.1 = some e.2 :=
  List.all_iff_forall_prop.mp (by decide)

theorem namedEscape?_eq_none {c : Byte} (unnamed : c ∉ Byte.escapeNames.map Prod.fst) :
    namedEscape? c = none := by
  simp only [Byte.escapeNames, List.map_cons, List.map_nil, List.mem_cons, not_or] at unnamed
  simp [namedEscape?, unnamed]

theorem readEscape_named {c b : Byte} (names : (c, b) ∈ Byte.escapeNames) (at_name : g.byte = c) :
    readEscape d (g :: gs) =
      ⟨if d = .slash ∧ b = Byte.backslash then [b, b] else [b], [], 1⟩ := by
  have found := namedEscape?_of_mem _ names
  have other : c ≠ Byte.newline := by
    rintro rfl
    cases found
  rw [readEscape, at_name, if_neg other, found]
  dsimp only
  split <;> rfl

theorem readEscape_octal {g₁ g₂ g₃ : Glyph} {a b c : ℕ} (ha : a < 8) (hb : b < 8) (hc : c < 8)
    (at₁ : g₁.byte = Byte.octalDigit a) (at₂ : g₂.byte = Byte.octalDigit b)
    (at₃ : g₃.byte = Byte.octalDigit c) :
    readEscape d (g₁ :: g₂ :: g₃ :: gs) = ⟨[codeByte 8 [a, b, c]], [], 3⟩ := by
  have digits : octalDigits (g₁ :: g₂ :: g₃ :: gs) = [a, b, c] := by
    simp [octalDigits, at₁, at₂, at₃, Byte.octalDigit_class, ha, hb, hc]
  obtain ⟨octal, _, unnamed⟩ := Byte.octalDigit_class a ha
  have mark : Byte.octalDigit a ≠ 0x78 := by
    intro mark
    rw [mark] at octal
    contradiction
  rw [readEscape, digits, at₁, if_neg (Byte.inner_octalDigit ha).1, unnamed]
  simp [mark, octal]

theorem codeByte_octal (code : Fin 512) :
    codeByte 8 [code / 64, code / 8 % 8, code % 8] = code.val.toUInt8 := by
  have digits : 8 * (8 * (code.val / 64) + code.val / 8 % 8) + code.val % 8 = code.val := by omega
  simp only [codeByte, List.foldl_cons, List.foldl_nil, Nat.mul_zero, Nat.zero_add, digits]

theorem readEscape_unnamed {b : Byte} (meaningless : b.Unnamed) (at_byte : g.byte = b) :
    readEscape d (g :: gs) = unknownEscape d g := by
  obtain ⟨digit, other, unnamed⟩ := meaningless
  have octal : Byte.isOctalDigit b = false := by
    cases octal : Byte.isOctalDigit b with
    | false => rfl
    | true => rw [← digit, Byte.isDigit_of_isOctalDigit octal]
  simp only [List.mem_cons, not_or] at other
  rw [readEscape, at_byte, if_neg other.2.1, namedEscape?_eq_none unnamed]
  simp [other.1, octal, digit]

/-- A byte that means nothing to a literal stands for itself. -/
theorem readLiteral_plain (opens : g.byte ≠ d.byte) (inner : g.byte ≠ Byte.newline)
    (other : g.byte ≠ Byte.backslash) :
    readLiteral d 0 (g :: gs) = (readLiteral d 0 gs).prepend [g.byte] [] := by
  rw [readLiteral, if_neg opens, if_neg inner, if_neg other]

theorem readLiteral_named {slash : Glyph} {b : Byte} (at_slash : slash.byte = Byte.backslash)
    (names : (g.byte, b) ∈ Byte.escapeNames) : readLiteral d 0 (slash :: g :: gs) =
      (readLiteral d 0 gs).prepend (if d = .slash ∧ b = Byte.backslash then [b, b] else [b]) [] := by
  rw [readLiteral_escape at_slash, readEscape_named names rfl]
  rfl

/-- A spelling is read as its byte, and the string goes on behind it. -/
theorem readLiteral_spelling (s : Spelling) (spots : gs.map Glyph.spot = s.written.map (·, l) ++ more) :
    ∃ rest, rest.map Glyph.spot = more ∧ readLiteral .quote 0 gs =
      (readLiteral .quote 0 rest).prepend [s.byte] (s.warnings l) := by
  cases s with
  | plain b usual =>
    obtain ⟨g, gs, rfl, rfl, _, behind⟩ := spot_eq_cons spots
    simp only [List.mem_cons, not_or] at usual
    exact ⟨gs, behind, readLiteral_plain usual.1 usual.2.2.1 usual.2.1⟩
  | named c b names =>
    obtain ⟨slash, gs, rfl, at_slash, _, spots⟩ := spot_eq_cons spots
    obtain ⟨name, gs, rfl, rfl, _, behind⟩ := spot_eq_cons spots
    exact ⟨gs, behind, readLiteral_named at_slash names⟩
  | hexadecimal high low b =>
    refine ⟨gs.drop 4, ?_, readLiteral_escapedIn (bytesOf_spots spots)⟩
    rw [List.map_drop, spots]
    rfl
  | octal code =>
    obtain ⟨slash, gs, rfl, at_slash, _, spots⟩ := spot_eq_cons spots
    obtain ⟨g₁, gs, rfl, at₁, _, spots⟩ := spot_eq_cons spots
    obtain ⟨g₂, gs, rfl, at₂, _, spots⟩ := spot_eq_cons spots
    obtain ⟨g₃, gs, rfl, at₃, _, behind⟩ := spot_eq_cons spots
    refine ⟨gs, behind, ?_⟩
    rw [readLiteral_escape at_slash,
      readEscape_octal (by omega) (by omega) (by omega) at₁ at₂ at₃, codeByte_octal]
    rfl
  | unnamed b meaningless =>
    obtain ⟨slash, gs, rfl, at_slash, _, spots⟩ := spot_eq_cons spots
    obtain ⟨g, gs, rfl, rfl, rfl, behind⟩ := spot_eq_cons spots
    refine ⟨gs, behind, ?_⟩
    have other (c : Byte) (named : c ∈ Byte.escapeNames.map Prod.fst) : g.byte ≠ c := by
      rintro rfl
      exact meaningless.2.2 named
    have inner := (Spelling.unnamed g.byte meaningless).written_inner g.byte (by simp [Spelling.written])
    rw [readLiteral_escape at_slash, readEscape_unnamed meaningless rfl]
    change (readLiteral .quote 0 (g :: gs)).prepend _ _ = _
    rw [readLiteral_plain (other _ (by decide)) inner.1 (other _ (by decide)),
      Literal.prepend_prepend, List.append_nil]
    rfl

/-- The pieces of a literal are read as its text. -/
theorem readLiteral_pieces {unit : String} {line : ℕ} {ps : List Piece}
    (spots : gs.map Glyph.spot =
      Program.spots unit line (ps.flatMap Piece.written) ++ (Delimiter.quote.byte, l) :: more) :
    ∃ rest, rest.map Glyph.spot = more ∧ readLiteral .quote 0 gs =
      ⟨ps.flatMap Piece.text, Piece.warnings unit line ps, .closed, rest⟩ := by
  -- A spelling stays on its line, and what follows a continuation starts on the next one.
  induction ps generalizing gs line with
  | nil =>
    obtain ⟨close, rest, rfl, at_close, _, behind⟩ := spot_eq_cons spots
    exact ⟨rest, behind, by rw [readLiteral, if_pos at_close]; rfl⟩
  | cons p ps ih =>
    rw [List.flatMap_cons, Program.spots_append, List.append_assoc] at spots
    cases p with
    | spelled s =>
      have inner := s.written_inner
      have lines : s.written.count Byte.newline = 0 :=
        List.count_eq_zero.mpr fun newline => (inner _ newline).1 rfl
      rw [Piece.written, Program.spots_inner inner, lines] at spots
      obtain ⟨behind, at_behind, read⟩ := readLiteral_spelling s spots
      obtain ⟨rest, at_rest, later⟩ := ih at_behind
      refine ⟨rest, at_rest, ?_⟩
      rw [read, later]
      rfl
    | continued =>
      obtain ⟨slash, gs, rfl, at_slash, _, spots⟩ := spot_eq_cons spots
      obtain ⟨newline, gs, rfl, at_newline, _, behind⟩ := spot_eq_cons spots
      obtain ⟨rest, at_rest, later⟩ := ih behind
      refine ⟨rest, at_rest, ?_⟩
      rw [readLiteral_escape at_slash, readEscape, if_pos at_newline]
      change (readLiteral .quote 0 gs).prepend [] [] = _
      rw [later]
      rfl

end Scanner

end AwkCore
