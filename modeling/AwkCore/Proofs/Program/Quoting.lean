import AwkCore.Proofs.Scanner.Quoted
import AwkCore.Proofs.Scanner.Rendered

/-!
# Literals of pieces

A program that is a string literal scans as the string that its pieces stand for, whatever the choice of
the pieces is. It gives the warnings of its pieces and no others.
-/
namespace AwkCore.Program

open Scanner (Delimiter Reads)

theorem getLast?_literal (ps : List Piece) :
    (Piece.literal ps).getLast? = some Delimiter.quote.byte :=
  List.getLast?_concat (l := 0x22 :: ps.flatMap Piece.written)

theorem count_literal (ps : List Piece) : (Piece.literal ps).count Byte.newline =
    (ps.flatMap Piece.written).count Byte.newline := by
  have other : (0x22 : Byte) ≠ Byte.newline := by decide
  rw [Piece.literal, List.count_append, List.count_cons_of_ne other, List.count_cons_of_ne other,
    List.count_nil, Nat.add_zero]

/-- A literal starts on the first line and is closed on the line of its last piece. -/
theorem spots_literal (unit : String) (ps : List Piece) :
    let written := ps.flatMap Piece.written
    let last : Location := ⟨unit, 1 + written.count Byte.newline⟩
    spots unit 1 (Piece.literal ps ++ [Byte.newline]) =
      (Delimiter.quote.byte, ⟨unit, 1⟩) :: (spots unit 1 written ++
        (Delimiter.quote.byte, last) :: [(Byte.newline, last)]) := by
  intro written last
  have split : Piece.literal ps ++ [Byte.newline] =
      0x22 :: (written ++ [Delimiter.quote.byte, Byte.newline]) := by
    simp only [Piece.literal, List.cons_append, List.append_assoc]
    rfl
  rw [split]
  exact congrArg (_ :: ·) (spots_append unit 1 written _)

/-- A literal scans as one string, the end of its last line and the end of input. -/
theorem reading_literal (start : Location) (unit : String) (ps : List Piece) :
    let last : Location := ⟨unit, 1 + (ps.flatMap Piece.written).count Byte.newline⟩
    (Scanner.ofProgram (ofUnits start [⟨unit, .ok (Piece.literal ps)⟩])).reading =
      ⟨[⟨.string, ps.flatMap Piece.text, Binary64.zero, ⟨unit, 1⟩⟩,
          ⟨.newline, [Byte.newline], Binary64.zero, last⟩, .ending last],
        none, Piece.warnings unit 1 ps⟩ := by
  intro last
  obtain ⟨spots, finish⟩ := unit_spots start unit (getLast?_literal ps) (by decide)
  rw [spots_literal] at spots
  rw [count_literal] at finish
  obtain ⟨quote, gs, glyphs, at_quote, place, spots⟩ := Scanner.spot_eq_cons spots
  obtain ⟨rest, at_rest, read⟩ := Scanner.readLiteral_pieces spots
  obtain ⟨line, none, rfl, at_line, line_place, at_none⟩ := Scanner.spot_eq_cons at_rest
  obtain rfl := List.map_eq_nil_iff.mp at_none
  have string : Scanner.readToken last Kind.endOfInput.producesValue (quote :: gs) =
      ⟨.ok ⟨.string, ps.flatMap Piece.text, Binary64.zero, ⟨unit, 1⟩⟩, Piece.warnings unit 1 ps,
        [line]⟩ := by
    rw [Scanner.readToken_quote at_quote, Scanner.readQuoted, read, place]
  have ends_line : Scanner.readToken last Kind.string.producesValue [line] =
      ⟨.ok ⟨.newline, [Byte.newline], Binary64.zero, last⟩, [], []⟩ := by
    rw [Scanner.readToken_newline at_line, line_place]
    rfl
  have reads := Reads.more string (by simp) (Reads.more ends_line (by simp) (Reads.at_end last _))
  have readable :
      (Scanner.ofProgram (ofUnits start [⟨unit, .ok (Piece.literal ps)⟩])).Readable := ⟨_, rfl⟩
  refine readable.reading_eq ?_
  change Reads (Stream.ofProgram _).finish .endOfInput (Stream.ofProgram _).glyphs _
  rw [finish, glyphs]
  simpa [Reading.after] using reads

end AwkCore.Program
