import AwkCore.Proofs.CommandLine.Report
import AwkCore.Proofs.Program.Quoting

/-!
# A listing can be read back

A listing is cut at its line feeds and then at its tabs into the columns of its tokens. In the last
column a text is written as the scanner reads it, so that a string literal with this column as its
content stands for the text. Hence listings are the same only for tokens that look the same.
-/
namespace AwkCore

open Scanner (Reads)

namespace Escaped

/-- Every byte is escaped in one of the ways in which a string literal can write it. -/
theorem exists_spelling (b : Byte) : ∃ s : Spelling, s.written = escapeByte b ∧ s.byte = b := by
  unfold escapeByte
  split
  · rename_i tab
    obtain rfl := eq_of_beq tab
    exact ⟨.named 0x74 0x09 (by decide), rfl, rfl⟩
  split
  · rename_i carriageReturn
    obtain rfl := eq_of_beq carriageReturn
    exact ⟨.named 0x72 0x0d (by decide), rfl, rfl⟩
  split
  · rename_i newline
    obtain rfl := eq_of_beq newline
    exact ⟨.named 0x6e 0x0a (by decide), rfl, rfl⟩
  split
  · rename_i sign
    simp only [Bool.or_eq_true, beq_iff_eq] at sign
    obtain (rfl | rfl) | rfl := sign
    · exact ⟨.unnamed 0x27 ⟨by decide, by decide, by decide⟩, rfl, rfl⟩
    · exact ⟨.named 0x22 0x22 (by decide), rfl, rfl⟩
    · exact ⟨.named 0x5c 0x5c (by decide), rfl, rfl⟩
  split
  · rename_i _ carriageReturn newline sign _
    simp only [beq_iff_eq, Bool.or_eq_true, not_or] at carriageReturn newline sign
    have usual : b ∉ [0x22, Byte.backslash, Byte.newline, Byte.carriageReturn] := by
      simp [Byte.backslash, Byte.newline, Byte.carriageReturn, sign, newline, carriageReturn]
    exact ⟨.plain b usual, rfl, rfl⟩
  · exact ⟨.hexadecimal false false b, rfl, rfl⟩

/-- A text that is escaped is made of pieces, which all stay on its line. -/
theorem exists_pieces (text : Bytes) : ∃ ps : List Piece, ps.flatMap Piece.written = escape text ∧
    ps.flatMap Piece.text = text ∧ ∀ b ∈ escape text, b.Inner := by
  induction text with
  | nil => exact ⟨[], rfl, rfl, nofun⟩
  | cons b text ih =>
    obtain ⟨s, written, byte⟩ := exists_spelling b
    obtain ⟨ps, others, meant, inner⟩ := ih
    have split : escape (b :: text) = escapeByte b ++ escape text := rfl
    refine ⟨.spelled s :: ps, ?_, ?_, ?_⟩
    · rw [List.flatMap_cons, others, split, ← written]
      rfl
    · rw [List.flatMap_cons, meant, Piece.text, byte]
      rfl
    · rw [split, List.forall_mem_append, ← written]
      exact ⟨s.written_inner, inner⟩

end Escaped

/-- A program of one string literal scans as the string, the end of its line and the end of input. -/
theorem Scanner.Readable.reading_string {s : Scanner} {text : Bytes} {warnings : List Diagnostic}
    {quote line : Glyph} {gs : List Glyph} (h : s.Readable) (glyphs : s.stream.glyphs = quote :: gs)
    (at_quote : quote.byte = Delimiter.quote.byte) (at_line : line.byte = Byte.newline)
    (read : readLiteral .quote 0 gs = ⟨text, warnings, .closed, [line]⟩) :
    s.reading = ⟨[⟨.string, text, Binary64.zero, quote.location⟩,
        ⟨.newline, [Byte.newline], Binary64.zero, line.location⟩, .ending s.stream.finish],
      none, warnings⟩ := by
  have string : readToken s.stream.finish s.current.kind.producesValue (quote :: gs) =
      ⟨.ok ⟨.string, text, Binary64.zero, quote.location⟩, warnings, [line]⟩ := by
    rw [readToken_quote at_quote, readQuoted, read]
  have ends_line : readToken s.stream.finish Kind.string.producesValue [line] =
      ⟨.ok ⟨.newline, [Byte.newline], Binary64.zero, line.location⟩, [], []⟩ := by
    rw [readToken_newline at_line]
    rfl
  have reads := Reads.more string (by simp)
    (Reads.more ends_line (by simp) (Reads.at_end s.stream.finish _))
  rw [← glyphs] at reads
  simpa [Reading.after] using h.reading_eq reads

namespace Escaped

/-- A string literal whose content is an escaped text stands for the text. -/
theorem reading_escape (start : Location) (unit : String) (text : Bytes) :
    ∃ warnings, (Scanner.ofProgram (Program.ofUnits start
        [⟨unit, .ok (0x22 :: escape text ++ [0x22])⟩])).reading =
      ⟨[⟨.string, text, Binary64.zero, ⟨unit, 1⟩⟩,
          ⟨.newline, [Byte.newline], Binary64.zero, ⟨unit, 1⟩⟩, .ending ⟨unit, 1⟩],
        none, warnings⟩ := by
  obtain ⟨ps, written, meant, inner⟩ := exists_pieces text
  have no_newline : (escape text).count Byte.newline = 0 :=
    List.count_eq_zero.mpr fun newline => (inner _ newline).1 rfl
  have literal : 0x22 :: escape text ++ [0x22] = Piece.literal ps := by rw [Piece.literal, written]
  obtain ⟨spots, finish⟩ :=
    Program.unit_spots start unit (Program.getLast?_literal ps) (by decide)
  rw [Program.spots_literal, written, no_newline] at spots
  rw [Program.count_literal, written, no_newline] at finish
  rw [literal]
  obtain ⟨quote, gs, glyphs, at_quote, place, spots⟩ := Scanner.spot_eq_cons spots
  rw [← written] at spots
  obtain ⟨rest, at_rest, read⟩ := Scanner.readLiteral_pieces spots
  obtain ⟨line, none, rfl, at_line, line_place, at_none⟩ := Scanner.spot_eq_cons at_rest
  obtain rfl := List.map_eq_nil_iff.mp at_none
  let s := Scanner.ofProgram (Program.ofUnits start [⟨unit, .ok (Piece.literal ps)⟩])
  have readable : s.Readable := ⟨_, rfl⟩
  have ending : s.stream.finish = ⟨unit, 1⟩ := finish
  have reading := readable.reading_string glyphs at_quote at_line read
  rw [place, line_place, ending, meant] at reading
  exact ⟨_, reading⟩

theorem escape_injective : Function.Injective escape := by
  intro text text' same
  obtain ⟨_, reading⟩ := reading_escape default inlineName text
  obtain ⟨_, reading'⟩ := reading_escape default inlineName text'
  rw [same, reading'] at reading
  have texts := congrArg (fun r => r.tokens.map Token.text) reading
  exact (List.cons.inj texts).1.symm

end Escaped

namespace CommandLine

/-- Cut a text at its line feeds and then at its tabs. Nothing comes after the last line feed. -/
def rowsOf (text : String) : List (List String) :=
  (text.toList.splitOn '\n').dropLast.map fun line => (line.splitOn '\t').map String.ofList

theorem toList_lines (lines : List String) : (String.join (lines.map (· ++ "\n"))).toList =
    ['\n'].intercalate (lines.map String.toList ++ [[]]) := by
  induction lines with
  | nil => rfl
  | cons line lines ih =>
    rw [List.map_cons, String.join_cons, String.toList_append, ih]
    cases lines <;> simp [List.intercalate_cons_cons]

theorem notMem_intercalate {c : Char} {separator : List Char} {columns : List (List Char)}
    (other : c ∉ separator) (plain : ∀ column ∈ columns, c ∉ column) :
    c ∉ separator.intercalate columns := by
  induction columns with
  | nil => simp
  | cons column columns ih =>
    obtain ⟨first, later⟩ := List.forall_mem_cons.mp plain
    cases columns with
    | nil => simpa using first
    | cons next columns =>
      rw [List.intercalate_cons_cons, List.mem_append, List.mem_append]
      exact not_or.mpr ⟨not_or.mpr ⟨first, other⟩, ih later⟩

/-- A line is cut into its columns. -/
theorem splitOn_row {row : List String} (some_column : row ≠ [])
    (plain : ∀ column ∈ row, '\t' ∉ column.toList) :
    ((("\t".intercalate row).toList.splitOn '\t').map String.ofList) = row := by
  have tab : "\t".toList = ['\t'] := by decide
  rw [String.toList_intercalate, tab, List.splitOn_intercalate]
  · simp
  · simpa using plain
  · simpa using some_column

/-- A table has no other rows than those that its text is cut into. -/
theorem IsTable.rowsOf_eq {text : String} {rows : List (List String)} (table : IsTable text rows) :
    rowsOf text = rows := by
  obtain ⟨rfl, some_column, plain⟩ := table
  have lines : String.join (rows.map fun row => "\t".intercalate row ++ "\n") =
      String.join ((rows.map "\t".intercalate).map (· ++ "\n")) := by
    rw [List.map_map]
    rfl
  have on_line : ∀ line ∈ (rows.map "\t".intercalate).map String.toList ++ [[]], '\n' ∉ line := by
    have other : '\n' ∉ "\t".toList := by decide
    simp only [List.forall_mem_append, List.forall_mem_map, List.forall_mem_singleton]
    refine ⟨fun row mem => ?_, by simp⟩
    rw [String.toList_intercalate]
    exact notMem_intercalate other (by simpa using fun column here => (plain row mem column here).2)
  rw [rowsOf, lines, toList_lines, List.splitOn_intercalate _ on_line (by simp),
    List.dropLast_concat, List.map_map, List.map_map]
  exact (List.map_congr_left fun row mem =>
    splitOn_row (some_column row mem) fun column here => (plain row mem column here).1).trans
      (List.map_id rows)

theorem number_injective : Function.Injective fun n : ℕ => toString n := by
  refine Function.LeftInverse.injective (g := fun s => Nat.ofDigitChars 10 s.toList 0) fun n => ?_
  simp only [Nat.toString_eq_ofList_toDigits, String.toList_ofList, Nat.ofDigitChars_ten_toDigits]

theorem textOf_injective : Function.Injective textOf := by
  intro bytes bytes' same
  refine Function.Injective.list_map (fun b b' shown => ?_) (String.ofList_injective same)
  have codes := congrArg Char.toNat shown
  rw [toNat_shown, toNat_shown] at codes
  exact UInt8.toNat_inj.mp codes

/-- What a token shows in a listing: its line, its class, the spelling of its kind and its text. -/
structure Shown where
  line : ℕ
  tokenClass : TokenClass
  kind : String
  text : Bytes
  deriving DecidableEq, Repr

def shown (t : Token) : Shown := ⟨t.location.line, t.kind.tokenClass, t.kind.text, t.text⟩

def Shown.columns (s : Shown) : List String :=
  [toString s.line, s.tokenClass.text, s.kind, textOf (Escaped.escape s.text)]

theorem tokenClass_text_injective : Function.Injective TokenClass.text := by
  intro c d same
  cases c <;> cases d <;> first | rfl | exact absurd same (by decide)

theorem Shown.columns_injective : Function.Injective columns := by
  rintro ⟨line, tokenClass, kind, text⟩ ⟨line', tokenClass', kind', text'⟩ same
  simp only [columns, List.cons.injEq, and_true] at same
  obtain ⟨lines, classes, rfl, texts⟩ := same
  rw [number_injective lines, tokenClass_text_injective classes,
    Escaped.escape_injective (textOf_injective texts)]

theorem isTable_lines_iff (ts : List Token) (rows : List (List String)) :
    IsTable (String.join (ts.map tokenLine)) rows ↔ rows = ts.map Token.columns := by
  constructor
  · intro table
    exact table.rowsOf_eq.symm.trans (isTable_lines ts).rowsOf_eq
  · rintro rfl
    exact isTable_lines ts

theorem report_stdout (p : Program) (echo : Bool) : (report p echo).stdout =
    String.join ((Scanner.ofProgram p).reading.tokens.map tokenLine) :=
  listed_gives (Scanner.gives_reading _)

/-- Lines are the same only for tokens that show the same. -/
theorem lines_eq_iff (ts us : List Token) :
    String.join (ts.map tokenLine) = String.join (us.map tokenLine) ↔ ts.map shown = us.map shown := by
  have columns (ts : List Token) : ts.map Token.columns = (ts.map shown).map Shown.columns := by
    rw [List.map_map]
    rfl
  constructor
  · intro same
    have table := isTable_lines us
    rw [← same, isTable_lines_iff, columns, columns] at table
    exact (Shown.columns_injective.list_map table).symm
  · intro same
    rw [(isTable_lines ts).written, (isTable_lines us).written, columns, columns, same]

/-- A listing loses nothing. It is cut in one way only into the rows of its tokens, each of four
columns, and the last column is what the scanner reads as the text of the token when it stands between
quotes. So the listings of two scans are the same exactly if their tokens have the same lines, classes,
spellings and texts. -/
theorem listing_lossless :
    (∀ (p : Program) (echo : Bool), (report p echo).stdout =
      String.join ((Scanner.ofProgram p).reading.tokens.map tokenLine)) ∧
    (∀ (ts : List Token) (rows : List (List String)),
      IsTable (String.join (ts.map tokenLine)) rows ↔ rows = ts.map Token.columns) ∧
    (∀ t : Token, t.columns.length = 4 ∧ t.columns[3]? = some (textOf (Escaped.escape t.text))) ∧
    (∀ (start : Location) (unit : String) (text : Bytes),
      let literal := 0x22 :: Escaped.escape text ++ [0x22]
      let here : Location := ⟨unit, 1⟩
      ∃ warnings, (Scanner.ofProgram (Program.ofUnits start [⟨unit, .ok literal⟩])).reading =
        ⟨[⟨.string, text, Binary64.zero, here⟩, ⟨.newline, [Byte.newline], Binary64.zero, here⟩,
          .ending here], none, warnings⟩) ∧
    ∀ (p q : Program) (echo echo' : Bool), (report p echo).stdout = (report q echo').stdout ↔
      (Scanner.ofProgram p).reading.tokens.map shown =
        (Scanner.ofProgram q).reading.tokens.map shown := by
  refine ⟨report_stdout, isTable_lines_iff, fun t => ⟨rfl, rfl⟩, Escaped.reading_escape, ?_⟩
  intro p q echo echo'
  rw [report_stdout, report_stdout, lines_eq_iff]

end CommandLine

end AwkCore
