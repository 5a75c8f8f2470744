import AwkCore.Proofs.Program.Ending
import AwkCore.Proofs.Program.Joining
import AwkCore.Proofs.Program.Numbers
import AwkCore.Proofs.Scanner.Gaps

/-!
# Continued lines

A backslash before the end of a line is a blank. A scan that comes to it between two tokens has read
everything before it as it reads it before a blank, and it goes on with the same glyphs: they show the
same bytes, and only the first of them is joined or not to what stands before it.
-/
namespace AwkCore

namespace Scanner

variable {gap gap' left : List Glyph} {s t u : Scanner}

/-- The same scanner with other glyphs ahead. -/
def withGlyphs (s : Scanner) (gs : List Glyph) : Scanner :=
  { s with stream := { s.stream with glyphs := gs } }

theorem lexemes_eq_of_next (same : s.next.outcome = u.next.outcome) : s.lexemes = u.lexemes := by
  cases next : s.next.outcome with
  | error failure => rw [(lexemes_error next 0).1, (lexemes_error (same.symm.trans next) 0).1]
  | ok t => rw [(lexemes_ok next 0).1, (lexemes_ok (same.symm.trans next) 0).1]

/-- A scan may start behind glyphs that do not count. -/
theorem Readable.lexemes_withGlyphs (readable : s.Readable)
    (same : ∀ finish divides, readToken finish divides s.stream.glyphs = readToken finish divides left) :
    s.lexemes = (s.withGlyphs left).lexemes := by
  have step : s.step = (s.withGlyphs left).step := same _ _
  have readable' : (s.withGlyphs left).Readable := readable
  apply lexemes_eq_of_next
  rw [readable.next_outcome, readable'.next_outcome, step]
  rfl

/-- Scanners before different gaps, with the same glyphs before that and the same token behind them. The
blanks at the front of the second gap may have been skipped. -/
structure Beside (gap gap' : List Glyph) (s u : Scanner) : Prop where
  readable : s.Readable
  readable' : u.Readable
  finish : s.stream.finish = u.stream.finish
  kind : s.current.kind = u.current.kind
  glyphs : ∃ left, s.stream.glyphs = left ++ gap ∧
    (u.stream.glyphs = left ++ gap' ∨ (left = [] ∧ u.stream.glyphs = skipBlanks gap'))

/-- A call that leaves the first gap where it is gives the same token before the second one. -/
theorem Beside.next (beside : Beside gap gap' s u) (opens : OpensGap gap) (opens' : OpensGap gap')
    (solid : skipBlanks gap = gap) (ok : s.next.outcome = .ok t)
    (before : gap <:+ t.stream.glyphs) : t.current.kind ≠ .endOfInput ∧
      ∃ v, u.next.outcome = .ok v ∧ v.current = t.current ∧ Beside gap gap' t v := by
  have more : t.current.kind ≠ .endOfInput := by
    intro ends
    rw [(AtEnd.of_next ok ends).no_glyphs] at before
    exact opens.ne_nil (List.suffix_nil.mp before)
  obtain ⟨token, stream, _⟩ := of_next_ok ok
  obtain ⟨left, glyphs, glyphs'⟩ := beside.glyphs
  have shorter := next_glyphs_length ok more
  have long := before.length_le
  rcases glyphs' with glyphs' | ⟨rfl, _⟩
  · rw [stream, step, glyphs] at before
    rw [step, glyphs] at token
    obtain ⟨token', rest⟩ := readToken_beside opens opens' solid token before
    rw [beside.finish, beside.kind, ← glyphs'] at token'
    refine ⟨more, _, beside.readable'.next_ok token', rfl, ?_⟩
    constructor
    case readable => rw [Readable, stream]; exact beside.readable
    case readable' => exact beside.readable'
    case finish => rw [stream]; exact beside.finish
    case kind => rfl
    case glyphs =>
      rw [stream, step, step, glyphs, glyphs', ← beside.finish, ← beside.kind]
      exact rest
  · -- A scanner that stands at the gap would have to read its token from there on.
    rw [glyphs, List.nil_append] at shorter
    exact absurd shorter (Nat.not_lt_of_le long)

/-- Scans that come to the gaps have read the same before them. -/
theorem Beside.lexemes (beside : Beside gap gap' s u) (opens : OpensGap gap) (opens' : OpensGap gap')
    (solid : skipBlanks gap = gap) (leads : s.Leads t) (before : gap <:+ t.stream.glyphs)
    (behind : ∀ v, Beside gap gap' t v → t.lexemes = v.lexemes) : s.lexemes = u.lexemes := by
  induction leads using Relation.ReflTransGen.head_induction_on generalizing u with
  | refl => exact behind u beside
  | head ok leads ih =>
    have here := before.trans (Leads.suffix leads)
    obtain ⟨more, v, ok', token, beside⟩ := beside.next opens opens' solid ok here
    have later := ih beside
    rw [(lexemes_ok ok 0).1, (lexemes_ok ok' 0).1, token, if_neg more, if_neg more, later]

/-- No number spans the front of the glyphs, so a joint there does not count. -/
theorem lexemes_eq_of_faces {places : List ℕ} (readable : s.Readable) (readable' : u.Readable)
    (kind : s.current.kind = u.current.kind) (front : ∀ e ∈ places, e = 0)
    (loosened : Loosened (s.stream.glyphs.map Glyph.face) (u.stream.glyphs.map Glyph.face) places) :
    s.lexemes = u.lexemes := by
  refine (lexemes_eq_iff_of_loosened readable readable' kind loosened).mpr fun span _ e mem splits => ?_
  rw [front e mem] at splits
  exact absurd splits.1 (Nat.not_lt_zero _)

/-- Where a continued line stands between two tokens, a blank may stand. What is behind may be joined to
the blank. -/
theorem lexemes_blank {front rest rest' : List Glyph} {b c e : Glyph} (readable : s.Readable)
    (glyphs : s.stream.glyphs = front ++ b :: c :: rest) (slash : b.byte = Byte.backslash)
    (newline : c.byte = Byte.newline) (blank : Byte.isBlank e.byte = true)
    (loosened : Loosened (rest'.map Glyph.face) (rest.map Glyph.face) [0]) (leads : s.Leads t)
    (at_t : t.stream.glyphs = gap ++ b :: c :: rest) (is_gap : (bytesOf gap).IsGap) :
    s.lexemes = (s.withGlyphs (front ++ e :: rest')).lexemes := by
  have opens : OpensGap (b :: c :: rest) := ⟨b, _, rfl, by rw [slash]; decide⟩
  have opens' : OpensGap (e :: rest') := ⟨e, _, rfl, fun solid => by simp [solid.1] at blank⟩
  have solid : skipBlanks (b :: c :: rest) = b :: c :: rest := by
    have other : Byte.isBlank Byte.backslash = false := by decide
    simp [skipBlanks, slash, other]
  have start : Beside (b :: c :: rest) (e :: rest') s (s.withGlyphs (front ++ e :: rest')) :=
    ⟨readable, readable, rfl, rfl, front, glyphs, .inl rfl⟩
  refine start.lexemes opens opens' solid leads (at_t ▸ List.suffix_append _ _) fun v beside => ?_
  obtain ⟨left, here, there⟩ := beside.glyphs
  obtain rfl : gap = left := List.append_cancel_right (at_t.symm.trans here)
  have behind (finish : Location) (divides : Bool) : readToken finish divides t.stream.glyphs =
      readToken finish divides rest := by
    rw [at_t, readToken_skipGap is_gap, readToken, skipSpacing_continued slash newline]
    rfl
  have behind' (finish : Location) (divides : Bool) : readToken finish divides v.stream.glyphs =
      readToken finish divides rest' := by
    rcases there with eq | ⟨_, eq⟩
    · rw [eq, readToken_skipGap is_gap, readToken_blank blank]
    · rw [eq, readToken_skipBlanks, readToken_blank blank]
  have same : (v.withGlyphs rest').lexemes = (t.withGlyphs rest).lexemes :=
    lexemes_eq_of_faces beside.readable' beside.readable beside.kind.symm (by simp) loosened
  rw [beside.readable.lexemes_withGlyphs behind, beside.readable'.lexemes_withGlyphs behind', same]

end Scanner

namespace Program

open Scanner (ofProgram)

/-- A backslash before the end of a line, with some carriage returns between them. -/
def continuation (returns : ℕ) : Bytes :=
  Byte.backslash :: (List.replicate returns Byte.carriageReturn ++ [Byte.newline])

/-- Some calls of a scan lead to a place of the source, but for a gap before it. -/
def BetweenTokens (p : Program) (place : ℕ) : Prop :=
  ∃ s gap, (ofProgram p).Leads s ∧ s.IsBefore (gap ++ p.source.drop place) ∧ (seenBytes gap).IsGap

theorem faces_returns (joined : Bool) (returns : ℕ) {b : Byte} (seen : b ≠ Byte.carriageReturn)
    (text : Bytes) : ∃ joint, faces joined (List.replicate returns Byte.carriageReturn ++ b :: text) =
      (b, joint) :: faces (b ≠ Byte.newline) text := by
  induction returns generalizing joined with
  | zero => exact ⟨joined, by simp [faces, seen]⟩
  | succ n ih =>
    obtain ⟨joint, eq⟩ := ih false
    exact ⟨joint, by simpa [List.replicate_succ, faces] using eq⟩

theorem faces_continuation (joined : Bool) (returns : ℕ) (text : Bytes) : ∃ joint,
    faces joined (continuation returns ++ text) =
      (Byte.backslash, joined) :: (Byte.newline, joint) :: faces false text := by
  have seen : Byte.newline ≠ Byte.carriageReturn := by decide
  have seen' : Byte.backslash ≠ Byte.carriageReturn := by decide
  obtain ⟨joint, eq⟩ := faces_returns (Byte.backslash ≠ Byte.newline) returns seen text
  refine ⟨joint, ?_⟩
  rw [continuation, List.cons_append, faces, if_neg seen', List.append_assoc, List.singleton_append, eq]
  simp

/-- A program with a text in one of its files. -/
def among (start : Location) (before after : List (String × Bytes)) (name : String) (text : Bytes) :
    Program :=
  ofUnits start ((before ++ (name, text) :: after).map readable)

/-- The text that is given inline stands alone. -/
theorem among_inline (text : Bytes) :
    among ⟨inlineName, 0⟩ [] [] inlineName text = inline text := rfl

variable {start : Location} {before after : List (String × Bytes)} {name : String}

theorem among_text (text : Bytes) : (among start before after name text).text =
    before.flatMap Prod.snd ++ (text ++ after.flatMap Prod.snd) := by
  rw [among, ofUnits_text, List.flatMap_append, List.flatMap_cons]

theorem files_faces_length (files : List (String × Bytes)) :
    (files.flatMap fun file => faces false file.2).length = visible (files.flatMap Prod.snd) := by
  induction files with
  | nil => rfl
  | cons file files ih =>
    rw [List.flatMap_cons, List.length_append, ih, faces_length, List.flatMap_cons, visible, visible,
      ← List.countP_append]
    rfl

/-- The faces behind a text: those of the files behind it, and of the end. -/
def trail (last : Bytes) (after : List (String × Bytes)) : Faces :=
  after.flatMap (fun file => faces false file.2) ++ closing (last ++ after.flatMap Prod.snd)

/-- The first face behind a text is not joined to the text. -/
theorem trail_fresh (last : Bytes) (after : List (String × Bytes)) {a : Byte × Bool}
    (first : (trail last after)[0]? = some a) : a.2 = false := by
  rw [trail] at first
  generalize last ++ after.flatMap Prod.snd = text at first
  induction after with
  | nil =>
    rw [List.flatMap_nil, List.nil_append, closing] at first
    split at first
    · cases first
    · rw [← Option.some.inj first]
  | cons file after ih =>
    rw [List.flatMap_cons, List.append_assoc] at first
    cases faces_eq : faces false file.2 with
    | nil =>
      rw [faces_eq] at first
      exact ih first
    | cons b bs =>
      rw [faces_eq] at first
      exact faces_head file.2 (by rw [faces_eq]; exact first)

/-- The faces of a text that is put between two others. -/
theorem among_faces (start : Location) (before after : List (String × Bytes)) (name : String)
    (p q : Bytes) (nonempty : q ≠ []) : ∃ joined, ∀ between,
    (Stream.ofProgram (among start before after name (p ++ between ++ q))).glyphs.map Glyph.face =
      (before.flatMap (fun file => faces false file.2) ++ faces false p) ++
        (faces joined (between ++ q) ++ trail q after) := by
  obtain ⟨joined, split⟩ := faces_append false p
  refine ⟨joined, fun between => ?_⟩
  have last : closing (before.flatMap Prod.snd ++ (p ++ between ++ q ++ after.flatMap Prod.snd)) =
      closing (q ++ after.flatMap Prod.snd) := by
    have behind : q ++ after.flatMap Prod.snd ≠ [] := by simp [nonempty]
    rw [closing, closing, List.append_assoc (p ++ between), ← List.append_assoc,
      List.getLast?_append_of_ne_nil _ behind]
  rw [among, ofUnits_faces, List.flatMap_append, List.flatMap_cons, List.flatMap_append,
    List.flatMap_cons, last, List.append_assoc p, split, trail]
  simp only [List.append_assoc]

theorem seen_length (spots : List Spot) : (seen spots).length = visible (spots.map Prod.fst) := by
  rw [visible, List.countP_map, seen, List.countP_eq_length_filter]
  rfl

/-- The glyphs behind as many as some bytes of the source show are those of the other bytes. -/
theorem spots_behind {p : Program} {place : ℕ} {front behind : List Glyph}
    (glyphs : (Stream.ofProgram p).glyphs = front ++ behind)
    (length : front.length = visible ((p.source.map Prod.fst).take place)) :
    behind.map Glyph.spot = seen (p.source.drop place) := by
  have shown := (source_displays p).seen
  rw [glyphs, ← List.take_append_drop place p.source, seen_append, List.map_append] at shown
  refine (List.append_inj shown ?_).2
  rw [List.length_map, length, seen_length, List.map_take]

/-- A scan that comes to a place of the source, but for a gap, has just the gap to skip there. -/
theorem BetweenTokens.glyphs {p : Program} {place : ℕ} {front behind : List Glyph}
    (between : BetweenTokens p place) (glyphs : (Stream.ofProgram p).glyphs = front ++ behind)
    (length : front.length = visible ((p.source.map Prod.fst).take place)) :
    ∃ s gap, (ofProgram p).Leads s ∧ s.stream.glyphs = gap ++ behind ∧
      (Scanner.bytesOf gap).IsGap := by
  obtain ⟨s, blanks, leads, before, is_gap⟩ := between
  have spots := spots_behind glyphs length
  rw [Scanner.IsBefore, seen_append, ← spots] at before
  have long : behind.length ≤ s.stream.glyphs.length := by
    have lengths := congrArg List.length before
    simp only [List.length_map, List.length_append] at lengths
    omega
  have suffix : s.stream.glyphs <:+ front ++ behind := glyphs ▸ Scanner.Leads.suffix leads
  obtain ⟨gap, split⟩ := List.suffix_of_suffix_length_le (List.suffix_append front behind) suffix long
  refine ⟨s, gap, leads, split.symm, ?_⟩
  rw [← split, List.map_append] at before
  rw [seenBytes, ← List.append_cancel_right before, List.map_map] at is_gap
  exact is_gap

/-- A line that is continued between two tokens reads as if a blank stood for the backslash and the line
feed, and for carriage returns between these. The text with the line may be given inline, or be that of
any file. -/
theorem lexemes_continued (start : Location) (before after : List (String × Bytes)) (name : String)
    (p q : Bytes) (returns : ℕ) (nonempty : q ≠ [])
    (between : BetweenTokens (among start before after name (p ++ continuation returns ++ q))
      (before.flatMap Prod.snd ++ p).length) :
    (ofProgram (among start before after name (p ++ continuation returns ++ q))).lexemes =
      (ofProgram (among start before after name (p ++ [0x20] ++ q))).lexemes := by
  obtain ⟨joined, split⟩ := among_faces start before after name p q nonempty
  obtain ⟨joint, continued⟩ := faces_continuation joined returns q
  have spaced : faces joined ([0x20] ++ q) = (0x20, joined) :: faces true q := rfl
  have shown := split (continuation returns)
  have shown' := split [0x20]
  rw [continued, List.cons_append, List.cons_append] at shown
  rw [spaced, List.cons_append] at shown'
  obtain ⟨front, gap, glyphs, front_faces, gap_faces⟩ := List.map_eq_append_iff.mp shown
  obtain ⟨b, gap, rfl, slash, gap_faces⟩ := List.map_eq_cons_iff.mp gap_faces
  obtain ⟨c, rest, rfl, newline, rest_faces⟩ := List.map_eq_cons_iff.mp gap_faces
  obtain ⟨front', gap', glyphs', front_faces', gap_faces'⟩ := List.map_eq_append_iff.mp shown'
  obtain ⟨e, rest', rfl, blank, rest_faces'⟩ := List.map_eq_cons_iff.mp gap_faces'
  have length : front.length = visible (before.flatMap Prod.snd ++ p) := by
    rw [visible, List.countP_append, ← visible, ← visible, ← files_faces_length, ← faces_length false p,
      ← List.length_append, ← front_faces, List.length_map]
  have is_blank : Byte.isBlank e.byte = true := by
    rw [show e.byte = 0x20 from congrArg Prod.fst blank]
    decide
  have loosened : Loosened (rest'.map Glyph.face) (rest.map Glyph.face) [0] := by
    rw [rest_faces, rest_faces']
    exact loosened_start_append true q fun a => trail_fresh q after
  have readable (text : Bytes) : (ofProgram (among start before after name text)).Readable :=
    (ofUnits_readable start _).2
  have bytes : ((among start before after name (p ++ continuation returns ++ q)).source.map
      Prod.fst).take (before.flatMap Prod.snd ++ p).length = before.flatMap Prod.snd ++ p := by
    rw [source_bytes, among_text, List.append_assoc p, List.append_assoc p, ← List.append_assoc,
      List.append_assoc, List.take_left]
  obtain ⟨t, gap, leads, at_t, is_gap⟩ :=
    between.glyphs glyphs (length.trans (congrArg visible bytes.symm))
  have one := Scanner.lexemes_blank (readable _) glyphs (congrArg Prod.fst slash)
    (congrArg Prod.fst newline) is_blank loosened leads at_t is_gap
  -- With a blank in its place, the first text shows the same faces as the second one.
  have same : Loosened ((front ++ e :: rest').map Glyph.face)
      ((Stream.ofProgram (among start before after name (p ++ [0x20] ++ q))).glyphs.map Glyph.face)
      [] := by
    rw [glyphs', List.map_append, List.map_append, front_faces, front_faces']
    exact Loosened.refl _
  exact one.trans (Scanner.lexemes_eq_of_faces (readable _) (readable _) rfl (by simp) same)

/-- A name with a parenthesis behind the continued line, and another continued line before it: in a text
that is given inline, and in a file between two others. -/
theorem lexemes_continued_name :
    let p := ascii "f \\\n\t"
    let q := ascii "(2)"
    let file := among ⟨"", 0⟩ [("a.awk", ascii "x\n")] [("c.awk", ascii "1")] "b.awk"
    q ≠ [] ∧ BetweenTokens (inline (p ++ continuation 1 ++ q)) p.length ∧
      (ofProgram (inline (p ++ continuation 1 ++ q))).lexemes =
        (ofProgram (inline (p ++ [0x20] ++ q))).lexemes ∧
      BetweenTokens (file (p ++ continuation 1 ++ q)) (ascii "x\n" ++ p).length ∧
        (ofProgram (file (p ++ continuation 1 ++ q))).lexemes =
          (ofProgram (file (p ++ [0x20] ++ q))).lexemes := by
  intro p q file
  let gap (unit : String) : List Spot :=
    [(Byte.backslash, ⟨unit, 1⟩), (Byte.newline, ⟨unit, 1⟩), (0x09, ⟨unit, 2⟩)]
  have is_gap (unit : String) : (seenBytes (gap unit)).IsGap := .continued (.blank rfl .nil)
  have between : BetweenTokens (inline (p ++ continuation 1 ++ q)) p.length :=
    ⟨_, gap inlineName, .single rfl, rfl, is_gap _⟩
  have between' : BetweenTokens (file (p ++ continuation 1 ++ q)) (ascii "x\n" ++ p).length :=
    ⟨_, gap "b.awk", .head rfl (.head rfl (.single rfl)), rfl, is_gap _⟩
  have nonempty : q ≠ [] := by decide
  have alone := lexemes_continued ⟨inlineName, 0⟩ [] [] inlineName p q 1 nonempty between
  rw [among_inline, among_inline] at alone
  exact ⟨nonempty, between, alone, between', lexemes_continued _ _ _ _ p q 1 nonempty between'⟩

end Program

end AwkCore
