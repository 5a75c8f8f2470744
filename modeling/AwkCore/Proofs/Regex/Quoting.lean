import AwkCore.Proofs.Regex.Rows
import AwkCore.Proofs.Scanner.Quoted
import AwkCore.Proofs.Scanner.Reads

/-!
# Quoted bytes are found

A regular expression literal of quoted bytes is scanned as a pattern with one atom for each byte. An
engine that takes atoms for their bytes compiles it unless it is too large, and finds it in a subject
exactly where the bytes stand.
-/
namespace AwkCore

/-- The ways in which a quoted byte is written: as a sign behind a backslash, by its name, as it is, or
in digits. -/
theorem Quotation.written_cases (q : Quotation) :
    (q.byte ∈ Byte.regexSigns ∧ q.written = [Byte.backslash, q.byte]) ∨
      q.byte ∉ Byte.regexSigns ∧
        ((∃ c, (c, q.byte) ∈ Byte.escapeNames ∧ q.written = [Byte.backslash, c]) ∨
          (q.byte.Inner ∧ q.byte ∉ [0x2f, Byte.backslash] ∧ q.written = [q.byte]) ∨
          (q.byte ≠ Byte.backslash ∧ q.written = q.byte.escapedIn q.high q.low)) := by
  unfold written
  by_cases sign : q.byte ∈ Byte.regexSigns
  · exact .inl ⟨sign, if_pos (.inl sign)⟩
  refine .inr ⟨sign, ?_⟩
  by_cases delimiter : q.byte ∈ [0x22, 0x2f, Byte.backslash]
  · have named : ∀ b ∈ [0x22, 0x2f, Byte.backslash], (b, b) ∈ Byte.escapeNames :=
      List.all_iff_forall_prop.mp (by decide)
    exact .inl ⟨q.byte, named _ delimiter, if_pos (.inr delimiter)⟩
  rw [if_neg (not_or.mpr ⟨sign, delimiter⟩)]
  simp only [List.mem_cons, not_or] at delimiter
  obtain ⟨_, slash, backslash, _⟩ := delimiter
  by_cases printable : Byte.isPrintable q.byte = true
  · have inner : q.byte.Inner := .of_class Byte.isPrintable printable (by decide)
    exact .inr (.inl ⟨inner, by simp [slash, backslash], if_pos printable⟩)
  rw [if_neg printable]
  by_cases newline : q.byte = Byte.newline
  · exact .inl ⟨0x6e, by rw [newline]; decide, (if_pos newline).trans (by decide)⟩
  rw [if_neg newline]
  by_cases carriageReturn : q.byte = Byte.carriageReturn
  · exact .inl ⟨0x72, by rw [carriageReturn]; decide, (if_pos carriageReturn).trans (by decide)⟩
  · exact .inr (.inr ⟨backslash, if_neg carriageReturn⟩)

theorem Quotation.written_inner (q : Quotation) : ∀ b ∈ q.written, b.Inner := by
  have slash : Byte.backslash.Inner := by decide
  have signs : ∀ b ∈ Byte.regexSigns, b.Inner := List.all_iff_forall_prop.mp (by decide)
  rcases q.written_cases with ⟨sign, written⟩ | ⟨_, ⟨c, names, written⟩ | ⟨inner, _, written⟩ |
    ⟨_, written⟩⟩
  · simpa [written, slash] using signs _ sign
  · simpa [written, slash] using Byte.escapeNames_inner _ names
  · simpa [written] using inner
  · rw [written]
    exact Byte.escapedIn_inner _ _ _

namespace Scanner

variable {slash g : Glyph} {gs : List Glyph} {w more : Bytes}

/-- A sign keeps its backslash, and it does so without a warning. -/
theorem readLiteral_sign (at_slash : slash.byte = Byte.backslash) (sign : g.byte ∈ Byte.regexSigns) :
    readLiteral .slash 0 (slash :: g :: gs) =
      (readLiteral .slash 0 gs).prepend [Byte.backslash, g.byte] [] := by
  have signs : ∀ b ∈ Byte.regexSigns, (Byte.isDigit b = false ∧
      b ∉ [0x78, Byte.newline, Byte.carriageReturn] ∧ b ∉ Byte.escapeNames.map Prod.fst) ∧
      b ∈ regexPunctuation ∧ b ≠ Delimiter.slash.byte ∧ b ≠ Byte.newline ∧ b ≠ Byte.backslash :=
    List.all_iff_forall_prop.mp (by decide)
  obtain ⟨meaningless, punctuation, opens, inner, other⟩ := signs _ sign
  rw [readLiteral_escape at_slash, readEscape_unnamed meaningless rfl, unknownEscape]
  simp only [if_pos punctuation]
  rw [readLiteral_plain opens inner other, Literal.prepend_prepend]
  rfl

/-- A quoted byte is read as what stands for it in a pattern. -/
theorem readLiteral_quotation (q : Quotation) (bytes : bytesOf gs = q.written ++ w) :
    ∃ rest, bytesOf rest = w ∧ readLiteral .slash 0 gs =
      (readLiteral .slash 0 rest).prepend q.byte.plainly [] := by
  rcases q.written_cases with ⟨sign, written⟩ | ⟨sign, ⟨c, names, written⟩ |
    ⟨inner, other, written⟩ | ⟨other, written⟩⟩
  · rw [written] at bytes
    obtain ⟨slash, gs, rfl, at_slash, bytes⟩ := bytesOf_eq_cons bytes
    obtain ⟨g, gs, rfl, at_sign, behind⟩ := bytesOf_eq_cons bytes
    rw [← at_sign] at sign ⊢
    refine ⟨gs, behind, ?_⟩
    rw [readLiteral_sign at_slash sign, Byte.plainly, if_pos (.inl sign)]
  · rw [written] at bytes
    obtain ⟨slash, gs, rfl, at_slash, bytes⟩ := bytesOf_eq_cons bytes
    obtain ⟨g, gs, rfl, at_name, behind⟩ := bytesOf_eq_cons bytes
    rw [← at_name] at names
    refine ⟨gs, behind, ?_⟩
    rw [readLiteral_named at_slash names]
    by_cases backslash : q.byte = Byte.backslash <;> simp [Byte.plainly, sign, backslash]
  · rw [written] at bytes
    obtain ⟨g, gs, rfl, at_byte, behind⟩ := bytesOf_eq_cons bytes
    simp only [List.mem_cons, not_or] at other
    obtain ⟨opens, backslash, _⟩ := other
    rw [← at_byte] at sign opens inner backslash ⊢
    rw [Byte.plainly, if_neg (not_or.mpr ⟨sign, backslash⟩)]
    exact ⟨gs, behind, readLiteral_plain opens inner.1 backslash⟩
  · rw [written] at bytes
    rw [Byte.plainly, if_neg (not_or.mpr ⟨sign, other⟩)]
    exact ⟨gs.drop 4, bytesOf_drop bytes, readLiteral_escapedIn bytes⟩

theorem readLiteral_quotations {qs : List Quotation}
    (bytes : bytesOf gs = qs.flatMap Quotation.written ++ Delimiter.slash.byte :: more) :
    ∃ rest, bytesOf rest = more ∧ readLiteral .slash 0 gs =
      ⟨(qs.map Quotation.byte).flatMap Byte.plainly, [], .closed, rest⟩ := by
  induction qs generalizing gs with
  | nil =>
    obtain ⟨close, rest, rfl, at_close, behind⟩ := bytesOf_eq_cons bytes
    exact ⟨rest, behind, by rw [readLiteral, if_pos at_close]; rfl⟩
  | cons q qs ih =>
    rw [List.flatMap_cons, List.append_assoc] at bytes
    obtain ⟨behind, at_behind, read⟩ := readLiteral_quotation q bytes
    obtain ⟨rest, at_rest, later⟩ := ih at_behind
    refine ⟨rest, at_rest, ?_⟩
    rw [read, later]
    rfl

/-- Where a regular expression may start, a literal is read as one. -/
theorem readToken_quotations (finish : Location) {qs : List Quotation} {front : List Glyph}
    (spacing : skipSpacing front = .token gs)
    (bytes : bytesOf gs = Quotation.literal qs ++ more) :
    ∃ l rest, bytesOf rest = more ∧ readToken finish false front =
      .plain .regex ((qs.map Quotation.byte).flatMap Byte.plainly) l rest := by
  rw [Quotation.literal, List.cons_append, List.cons_append, List.append_assoc] at bytes
  obtain ⟨slash, gs, rfl, at_slash, bytes⟩ := bytesOf_eq_cons bytes
  obtain ⟨rest, at_rest, read⟩ := readLiteral_quotations bytes
  have no_comment : slash.byte ≠ 0x23 := by
    rw [at_slash]
    decide
  refine ⟨slash.location, rest, at_rest, ?_⟩
  rw [readToken_eq spacing, skipComment, if_neg no_comment, readLexeme_slash at_slash rfl,
    readQuoted, read]
  rfl

/-- No failure of the input lies right ahead of a glyph. -/
theorem fault?_eq_none {stream : Stream} (some : stream.glyphs ≠ []) : stream.fault? = none := by
  obtain ⟨_ | ⟨g, gs⟩, ending, count⟩ := stream
  · contradiction
  · rfl

section Call

variable {s : Scanner} {qs : List Quotation} (opens : s.current.kind.producesValue = false)
  (spacing : skipSpacing s.stream.glyphs = .token gs)
  (bytes : bytesOf gs = Quotation.literal qs ++ more) (whole : more ≠ [] ∨ s.Readable)

include opens spacing bytes whole

theorem next_quotations : ∃ t, s.next.outcome = .ok t ∧ s.next.warnings = [] ∧
    t.current.kind = .regex ∧ bytesOf t.stream.glyphs = more ∧
    t.current.text = (qs.map Quotation.byte).flatMap Byte.plainly := by
  obtain ⟨l, rest, at_rest, read⟩ :=
    readToken_quotations s.stream.finish spacing bytes
  rw [← opens] at read
  have ahead : s.stream.fault? = none := by
    apply fault?_eq_none
    intro none
    rw [none] at spacing
    cases spacing
    cases bytes
  have behind : Stream.fault? { s.stream with glyphs := s.step.rest } = none := by
    rw [step, read]
    rcases whole with nonempty | readable
    · apply fault?_eq_none
      rintro rfl
      exact nonempty at_rest.symm
    · exact readable.whole rest
  obtain ⟨outcome, warnings⟩ := next_of_whole ahead behind
  rw [step, read] at outcome warnings
  exact ⟨_, outcome, warnings, rfl, at_rest, rfl⟩

/-- Where a regular expression may start, a literal of quoted bytes is one token, without a warning.
The pattern that it gives is a row of atoms, one for each byte. An engine refuses it for its size only,
and a pattern that is compiled is found exactly where the bytes stand. -/
theorem next_quoted {engine : Engine} {Means : Bytes → Language Byte → Prop}
    (follows : engine.Follows Means) :
    let quoted := qs.map Quotation.byte
    ∃ t, s.next.outcome = .ok t ∧ s.next.warnings = [] ∧ t.current.kind = .regex ∧
      bytesOf t.stream.glyphs = more ∧
      Pattern.inAscii t.current.text = quoted.flatMap Pattern.atom ∧
      Pattern.Row (Pattern.inAscii t.current.text) quoted ∧
      ((engine.compile? t.current.text).isSome ↔
        engine.refusal? (Pattern.inAscii t.current.text) ≠ some .tooLarge) ∧
      ∀ p, engine.compile? t.current.text = some p →
        ∀ subject, engine.isMatch p subject = true ↔ quoted <:+: subject := by
  intro quoted
  obtain ⟨t, ok, silent, kind, behind, text⟩ := next_quotations opens spacing bytes whole
  have source : Pattern.inAscii t.current.text = quoted.flatMap Pattern.atom := by
    rw [text, Pattern.inAscii_plainly]
  have row : Pattern.Row (Pattern.inAscii t.current.text) quoted := by
    rw [source]
    exact Pattern.row_atoms quoted
  exact ⟨t, ok, silent, kind, behind, source, row, follows.isSome_compile?_iff row,
    fun p compiled => follows.isMatch row compiled⟩

end Call

/-- A sign, a byte that is written in digits, a backslash and a line feed. -/
theorem next_quoted_signs :
    let qs : List Quotation := [⟨0x2e, false, false⟩, ⟨0xff, true, false⟩,
      ⟨Byte.backslash, false, false⟩, ⟨Byte.newline, false, false⟩]
    let s := ofProgram (Program.inline (Quotation.literal qs))
    let engine := Engine.rows 0x40000
    ∃ t p, s.next.outcome = .ok t ∧ t.current.kind = .regex ∧
      p.source = ascii "\\.\\xff\\\\\n" ∧ engine.compile? t.current.text = some p ∧
      ∀ subject, engine.isMatch p subject = true ↔ [0x2e, 0xff, 0x5c, 0x0a] <:+: subject := by
  intro qs s engine
  have spacing : skipSpacing s.stream.glyphs = .token s.stream.glyphs := rfl
  have bytes : bytesOf s.stream.glyphs = Quotation.literal qs ++ [Byte.newline] := by decide
  obtain ⟨t, ok, _, kind, _, source, _, compiles, found⟩ :=
    next_quoted (s := s) rfl spacing bytes (.inl (by decide)) (Engine.rows_follows 0x40000)
  have admitted : engine.refusal? (Pattern.inAscii t.current.text) ≠ some .tooLarge := by
    rw [source]
    decide
  obtain ⟨p, compiled⟩ := Option.isSome_iff_exists.mp (compiles.mpr admitted)
  refine ⟨t, p, ok, kind, ?_, compiled, found p compiled⟩
  rw [Engine.source_of_compile? compiled, source]
  decide

end Scanner

namespace Program

theorem inline_bytes {text : Bytes} {last : Byte} (at_last : text.getLast? = some last)
    (inner : ∀ b ∈ text, b.Inner) :
    Scanner.bytesOf (Stream.ofProgram (inline text)).glyphs = text ++ [Byte.newline] := by
  have open_end := (inner last (List.mem_of_getLast? at_last)).1
  obtain ⟨spots, _⟩ := unit_spots ⟨inlineName, 0⟩ inlineName at_last open_end
  rw [spots_append, spots_inner inner] at spots
  exact Scanner.bytesOf_spots spots

theorem next_literal (qs : List Quotation) :
    ∃ t, (Scanner.ofProgram (inline (Quotation.literal qs))).next.outcome = .ok t ∧
      t.current.kind = .regex ∧
      t.current.text = (qs.map Quotation.byte).flatMap Byte.plainly := by
  have inner : ∀ b ∈ Quotation.literal qs, b.Inner := by
    have slash : Byte.Inner 0x2f := by decide
    have written : ∀ b ∈ qs.flatMap Quotation.written, b.Inner := by
      intro b mem
      obtain ⟨q, _, mem⟩ := List.mem_flatMap.mp mem
      exact q.written_inner b mem
    simpa [Quotation.literal, slash, or_imp, forall_and] using written
  have last : (Quotation.literal qs).getLast? = some 0x2f := List.getLast?_concat
  let s := Scanner.ofProgram (inline (Quotation.literal qs))
  have bytes : Scanner.bytesOf s.stream.glyphs = Quotation.literal qs ++ [Byte.newline] :=
    inline_bytes last inner
  obtain ⟨slash, gs, glyphs, at_slash, _⟩ := Scanner.bytesOf_eq_cons bytes
  have spacing : Scanner.skipSpacing s.stream.glyphs = .token s.stream.glyphs := by
    rw [glyphs]
    exact Scanner.skipSpacing_here (by rw [at_slash]; decide) (by rw [at_slash]; decide) gs
  obtain ⟨t, ok, _, kind, _, text⟩ := Scanner.next_quotations (s := s) rfl spacing bytes
    (.inl (by simp))
  exact ⟨t, ok, kind, text⟩

/-- An engine that takes atoms for their bytes may still refuse a literal of many bytes for its size. -/
theorem next_quoted_refused :
    let quoted : Bytes := List.replicate 500000 0x61
    let engine := Engine.rows 0x40000
    engine.Follows Pattern.RowMeans ∧
    ∃ t, (Scanner.ofProgram (inline (Quotation.literal
        (quoted.map (⟨·, false, false⟩))))).next.outcome = .ok t ∧
      t.current.kind = .regex ∧ engine.refusal? (Pattern.inAscii t.current.text) = some .tooLarge ∧
      engine.compile? t.current.text = none := by
  intro quoted engine
  obtain ⟨t, ok, kind, text⟩ := next_literal (quoted.map (⟨·, false, false⟩))
  have same : (quoted.map (⟨·, false, false⟩)).map Quotation.byte = quoted := by
    rw [List.map_map]
    exact List.map_id _
  have row : Pattern.Row (Pattern.inAscii t.current.text) quoted := by
    rw [text, same, Pattern.inAscii_plainly]
    exact Pattern.row_atoms quoted
  have long : ¬ quoted.length ≤ 0x40000 := by
    rw [List.length_replicate]
    decide
  have refused := (Engine.rows_refusal row).trans (if_neg long)
  exact ⟨Engine.rows_follows _, t, ok, kind, refused, by simp [Engine.compile?, engine, refused]⟩

end Program

end AwkCore
