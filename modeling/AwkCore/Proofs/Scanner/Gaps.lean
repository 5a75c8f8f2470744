import AwkCore.Proofs.Scanner.Lines
import AwkCore.Proofs.Scanner.Operators

/-!
# Tokens before a gap

A blank, a backslash and the mark of a comment end every token that is not a literal. So a token that
is read before a gap is read alike whatever the gap is: it stops before the gap, and all that a name takes
of it are the blanks at its front.
-/
namespace AwkCore.Scanner

/-- The first glyph is one that is skipped before a token. -/
def OpensGap (gs : List Glyph) : Prop := ∃ g tail, gs = g :: tail ∧ ¬ g.byte.Solid

/-- How a step that reads some glyphs with a gap behind them comes from the step that reads them alone. -/
def Step.Meets (a b : Step) (gap : List Glyph) : Prop :=
  b = a.before gap ∨ (a.rest = [] ∧ b = { a with rest := skipBlanks gap })

variable {divides : Bool} {finish l : Location} {d : Delimiter} {g : Glyph}
  {gs gap gap' : List Glyph} {t : Token}

theorem Step.Meets.outcome {a b : Step} (meets : a.Meets b gap) : b.outcome = a.outcome := by
  rcases meets with rfl | ⟨_, rfl⟩ <;> rfl

theorem Step.Meets.rest {a b : Step} (meets : a.Meets b gap) :
    b.rest = a.rest ++ gap ∨ (a.rest = [] ∧ b.rest = skipBlanks gap) := by
  rcases meets with rfl | ⟨none, rfl⟩
  · exact .inl rfl
  · exact .inr ⟨none, rfl⟩

theorem OpensGap.ne_nil (opens : OpensGap gap) : gap ≠ [] := by
  obtain ⟨g, tail, rfl, _⟩ := opens
  simp

theorem not_newline {b : Byte} (skipped : ¬ b.Solid) : b ≠ Byte.newline := by
  rintro rfl
  exact skipped (by decide)

section Class

/-- Bytes of a class that neither a blank, a backslash nor the mark of a comment belongs to. -/
structure Tight (p : Byte → Bool) : Prop where
  space : p 0x20 = false
  tab : p 0x09 = false
  slash : p Byte.backslash = false
  mark : p 0x23 = false

variable {p : Byte → Bool}

theorem Tight.stops (tight : Tight p) {b : Byte} (skipped : ¬ b.Solid) : p b = false := by
  by_contra inside
  exact skipped (.of_class p (by simpa using inside) ⟨tight.space, tight.tab, tight.slash, tight.mark⟩)

theorem OpensGap.takeWhile (opens : OpensGap gap) (tight : Tight p) (gs : List Glyph) :
    (gs ++ gap).takeWhile (p ·.byte) = gs.takeWhile (p ·.byte) := by
  obtain ⟨g, tail, rfl, skipped⟩ := opens
  have stop := tight.stops skipped
  induction gs with
  | nil => simp [stop]
  | cons h gs ih => simp [List.takeWhile_cons, ih]

theorem OpensGap.dropWhile (opens : OpensGap gap) (tight : Tight p) (gs : List Glyph) :
    (gs ++ gap).dropWhile (p ·.byte) = gs.dropWhile (p ·.byte) ++ gap := by
  obtain ⟨g, tail, rfl, skipped⟩ := opens
  have stop := tight.stops skipped
  induction gs with
  | nil => simp [stop]
  | cons h gs ih =>
    by_cases inside : p h.byte = true
    · simp [inside, ih]
    · simp [inside]

end Class

theorem skipBlanks_append_or (gs gap : List Glyph) :
    skipBlanks (gs ++ gap) = skipBlanks gs ++ gap ∨
      (skipBlanks gs = [] ∧ skipBlanks (gs ++ gap) = skipBlanks gap) := by
  unfold skipBlanks
  rw [List.dropWhile_append]
  split
  · rename_i all
    exact .inr ⟨List.isEmpty_iff.mp all, rfl⟩
  · exact .inl rfl

theorem readWord_gap (opens : OpensGap gap) (l : Location) (gs : List Glyph) :
    (readWord l gs).Meets (readWord l (gs ++ gap)) gap := by
  have tight : Tight Byte.isNamePart := by constructor <;> decide
  have called : ((gs.dropWhile (Byte.isNamePart ·.byte) ++ gap).head?.map Glyph.byte = some 0x28) =
      ((gs.dropWhile (Byte.isNamePart ·.byte)).head?.map Glyph.byte = some 0x28) := by
    cases gs.dropWhile (Byte.isNamePart ·.byte) with
    | cons => rfl
    | nil =>
      obtain ⟨g, tail, rfl, skipped⟩ := opens
      have other : g.byte ≠ 0x28 := by
        rintro same
        rw [same] at skipped
        exact skipped (by decide)
      simp [other]
  unfold readWord
  simp only [opens.takeWhile tight, opens.dropWhile tight, called]
  split
  · exact .inl rfl
  split
  · exact .inl rfl
  split
  · exact .inl rfl
  · rcases skipBlanks_append_or (gs.dropWhile (Byte.isNamePart ·.byte)) gap with eq | ⟨none, eq⟩
    · exact .inl (by rw [eq]; rfl)
    · exact .inr ⟨none, by rw [eq]; rfl⟩

theorem numberTail_gap (opens : OpensGap gap) (stage : Numeral.Stage) (gs : List Glyph) :
    numberTail stage (gs ++ gap) = numberTail stage gs := by
  fun_induction numberTail stage gs with
  | case1 stage =>
    obtain ⟨g, tail, rfl, skipped⟩ := opens
    have tight : Tight fun b => (stage.next? b).isSome := by
      cases stage <;> constructor <;> decide
    have stop : stage.next? g.byte = none := by simpa using tight.stops skipped
    simp [numberTail, stop]
  | case2 stage g gs joined next at_next ih => simp [numberTail, joined, at_next, ih]
  | case3 stage g gs joined at_next => simp [numberTail, joined, at_next]
  | case4 stage g gs loose => simp [numberTail, loose]

theorem readNumber_gap (opens : OpensGap gap) (l : Location) (g : Glyph) (gs : List Glyph) :
    readNumber l g (gs ++ gap) = (readNumber l g gs).before gap := by
  have window : numberWindow g (gs ++ gap) = numberWindow g gs := by
    rw [numberWindow, numberTail_gap opens, numberWindow]
  exact readNumber_before window

/-- No byte of an operator is skipped before a token, so the longest one ends before the gap. -/
theorem readOperator_gap (opens : OpensGap gap) (l : Location) (g : Glyph) (gs : List Glyph) :
    readOperator l g (gs ++ gap) = (readOperator l g gs).before gap := by
  have whole : bytesOf (g :: (gs ++ gap)) = bytesOf (g :: gs) ++ bytesOf gap := by simp [bytesOf]
  have stop : ∀ b ∈ (bytesOf gap).head?, ¬ Vocabulary.StartsOperator b := by
    obtain ⟨h, tail, rfl, skipped⟩ := opens
    rintro b ⟨⟩ ⟨_, _, _, _, _, _, blank, slash, mark⟩
    exact skipped ⟨blank, slash, mark⟩
  have further {w : Bytes} (front : w <+: bytesOf (g :: gs)) : w <+: bytesOf (g :: (gs ++ gap)) := by
    rw [whole]
    exact front.trans (List.prefix_append _ _)
  rcases readOperator_longest l g (gs ++ gap) with ⟨o, w, longest, read⟩ | ⟨none, read⟩
  · obtain ⟨left, split⟩ := within_run longest.spelled (whole ▸ longest.front) stop
    have here : o.Longest (g.byte :: w) (bytesOf (g :: gs)) :=
      ⟨longest.spelled, ⟨left, split.symm⟩, fun o' w' spelled front =>
        longest.longest o' w' spelled (further front)⟩
    have length := here.front.length_le
    rcases readOperator_longest l g gs with ⟨o', w', longest', read'⟩ | ⟨none, _⟩
    · obtain ⟨rfl, same⟩ := here.unique longest'
      obtain ⟨_, rfl⟩ := List.cons.inj same
      rw [read, read', List.drop_append_of_le_length (by simpa [bytesOf] using length)]
      rfl
    · exact absurd none here.not_noneAt
  · rcases readOperator_longest l g gs with ⟨o, w, longest, _⟩ | ⟨_, read'⟩
    · exact absurd (further longest.front) (none o _ longest.spelled)
    · rw [read, read']
      rfl

section Literal

theorem hexDigits_gap (opens : OpensGap gap) (gs : List Glyph) :
    hexDigits (gs ++ gap) = hexDigits gs := by
  obtain ⟨g, tail, rfl, skipped⟩ := opens
  have tight : Tight fun b => (Byte.hexValue? b).isSome := by constructor <;> decide
  have stop : Byte.hexValue? g.byte = none := by simpa using tight.stops skipped
  match gs with
  | [] => simp [hexDigits, stop]
  | [h] => simp [hexDigits, stop, List.takeWhile_cons]
  | h :: i :: gs => rfl

theorem octalDigits_gap (opens : OpensGap gap) (gs : List Glyph) :
    octalDigits (gs ++ gap) = octalDigits gs := by
  obtain ⟨g, tail, rfl, skipped⟩ := opens
  have tight : Tight Byte.isOctalDigit := by constructor <;> decide
  have stop := tight.stops skipped
  match gs with
  | [] => simp [octalDigits, stop]
  | [h] => simp [octalDigits, stop, List.takeWhile_cons]
  | [h, i] => simp [octalDigits, stop, List.takeWhile_cons]
  | h :: i :: j :: gs => rfl

theorem readEscape_gap (opens : OpensGap gap) (nonempty : gs ≠ []) :
    readEscape d (gs ++ gap) = readEscape d gs := by
  obtain ⟨g, gs, rfl⟩ := List.exists_cons_of_ne_nil nonempty
  have octal := octalDigits_gap opens (g :: gs)
  rw [List.cons_append] at octal ⊢
  rw [readEscape, readEscape, hexDigits_gap opens, octal]

/-- The closing delimiter is used. -/
theorem readLiteral_closed {used : ℕ} (closed : (readLiteral d used gs).ending = .closed) :
    (readLiteral d used gs).rest.length < gs.length := by
  fun_induction readLiteral d used gs with
  | case1 => contradiction
  | case2 g gs used ih => exact (ih closed).trans (Nat.lt_succ_self _)
  | case3 => exact Nat.lt_succ_self _
  | case4 => contradiction
  | case5 g gs opens more slash e =>
    rename_i ih
    exact (ih closed).trans (Nat.lt_succ_self _)
  | case6 g gs opens more other ih => exact (ih closed).trans (Nat.lt_succ_self _)

/-- A literal that is not closed before the gap is closed in it, or behind. -/
theorem readLiteral_beyond {used : ℕ} (opens : OpensGap gap)
    (open_end : (readLiteral d used gs).ending = .exhausted)
    (closed : (readLiteral d used (gs ++ gap)).ending = .closed) :
    (readLiteral d used (gs ++ gap)).rest.length < gap.length := by
  fun_induction readLiteral d used gs with
  | case1 => exact readLiteral_closed closed
  | case2 g gs used ih => exact ih open_end closed
  | case3 => contradiction
  | case4 => contradiction
  | case5 g gs opens' more slash e =>
    rename_i ih
    rw [List.cons_append, readLiteral, if_neg opens', if_neg more, if_pos slash] at closed ⊢
    cases gs with
    | nil =>
      -- What the backslash escapes is in the gap.
      exact readLiteral_closed closed
    | cons h gs =>
      rw [readEscape_gap opens (List.cons_ne_nil h gs)] at closed ⊢
      exact ih open_end closed
  | case6 g gs opens' more other ih =>
    rw [List.cons_append, readLiteral, if_neg opens', if_neg more, if_neg other] at closed ⊢
    exact ih open_end closed

end Literal

/-- Reading stops before any gap that may follow these glyphs. -/
def StopsBefore (read : List Glyph → Step) (gs : List Glyph) : Prop :=
  ∀ gap, OpensGap gap → (read gs).Meets (read (gs ++ gap)) gap

/-- A token takes some of any gap that may follow these glyphs, or what it takes starts there. -/
def GoesInto (read : List Glyph → Step) (gs : List Glyph) : Prop :=
  ∀ gap t, OpensGap gap → (read (gs ++ gap)).outcome = .ok t →
    (read (gs ++ gap)).rest.length < gap.length

theorem readQuoted_gap (d : Delimiter) (kind : Kind) (l : Location) (gs : List Glyph) :
    StopsBefore (readQuoted d kind l) gs ∨ GoesInto (readQuoted d kind l) gs := by
  by_cases open_end : (readLiteral d 0 gs).ending = .exhausted
  · refine .inr fun gap t opens ok => readLiteral_beyond opens open_end ?_
    by_contra other
    cases ending : (readLiteral d 0 (gs ++ gap)).ending with
    | closed => exact other ending
    | brokenLine => simp [readQuoted, ending] at ok
    | exhausted => simp [readQuoted, ending] at ok
  · refine .inl fun gap opens => .inl ?_
    have escapes (hs : List Glyph) (_ : hs <:+ gs) (more : hs ≠ []) :
        readEscape d (hs ++ gap) = readEscape d hs := readEscape_gap opens more
    rw [readQuoted, readLiteral_before escapes open_end]
    rfl

theorem readLexeme_gap (divides : Bool) (l : Location) (g : Glyph) (gs : List Glyph) :
    StopsBefore (readLexeme divides l) (g :: gs) ∨ GoesInto (readLexeme divides l) (g :: gs) := by
  simp only [StopsBefore, GoesInto, readLexeme, List.cons_append]
  split_ifs
  · exact .inl fun _ _ => .inl rfl
  · exact .inl fun _ opens => readWord_gap opens l (g :: gs)
  · exact readQuoted_gap .quote .string l gs
  · exact .inl fun _ opens => .inl (readNumber_gap opens l g gs)
  · exact readQuoted_gap .slash .regex l gs
  · exact .inl fun _ _ => .inl rfl
  · exact .inl fun _ opens => .inl (readOperator_gap opens l g gs)

/-- A comment is left at the end of its line, which may be in the gap or behind it. -/
theorem skipComment_gap (g : Glyph) (gs : List Glyph) :
    (skipComment (g :: gs) ≠ [] ∧ ∀ gap, skipComment (g :: gs ++ gap) = skipComment (g :: gs) ++ gap) ∨
      ∀ gap, OpensGap gap → (skipComment (g :: gs ++ gap)).length < gap.length := by
  simp only [skipComment, List.cons_append]
  split_ifs with mark
  · by_cases stop : ∃ h ∈ gs, decide (h.byte ≠ Byte.newline) = false
    · exact .inl ⟨dropWhile_ne_nil stop, dropWhile_append_of_stop stop⟩
    · refine .inr fun gap opens => ?_
      obtain ⟨h, tail, rfl, skipped⟩ := opens
      have all : ∀ h ∈ gs, decide (h.byte ≠ Byte.newline) = true := by simpa using stop
      rw [List.dropWhile_append_of_pos all, List.dropWhile_cons, if_pos (by simpa using not_newline skipped)]
      exact Nat.lt_succ_of_le (List.dropWhile_suffix _).length_le
  · exact .inl ⟨by simp, fun _ => rfl⟩

theorem readLexeme_rest_length_le (divides : Bool) (l : Location) (gs : List Glyph) :
    (readLexeme divides l gs).rest.length ≤ gs.length := by
  cases gs with
  | nil => exact Nat.zero_le _
  | cons g gs => exact (readLexeme_rest_suffix divides l g gs).length_le.trans (Nat.le_succ _)

/-- A gap continues no line behind a backslash. -/
theorem skipSpacing_stray (opens : OpensGap gap) {left : List Glyph}
    (spacing : skipSpacing gs = .strayBackslash l left) :
    skipSpacing (gs ++ gap) = .strayBackslash l (left ++ gap) := by
  fun_induction skipSpacing gs with
  | case1 => cases spacing
  | case2 => cases spacing
  | case3 g solid slash =>
    cases spacing
    obtain ⟨h, tail, rfl, skipped⟩ := opens
    rw [List.singleton_append, skipSpacing, if_neg solid, if_pos slash, if_neg (not_newline skipped)]
    rfl
  | case4 => cases spacing
  | case5 g h gs blank ih =>
    rw [List.cons_append, skipSpacing_blank blank]
    exact ih spacing
  | case6 g h gs _ slash newline ih =>
    rw [List.cons_append, List.cons_append, skipSpacing_continued slash newline]
    exact ih spacing
  | case7 g h gs solid slash other =>
    cases spacing
    rw [List.cons_append, List.cons_append, skipSpacing, if_neg solid, if_pos slash, if_neg other]
  | case8 => cases spacing

/-- A token is read before the gap that follows, or it is read from the gap on. -/
theorem readToken_gap (finish : Location) (divides : Bool) (gs : List Glyph) :
    StopsBefore (readToken finish divides) gs ∨ GoesInto (readToken finish divides) gs := by
  cases spacing : skipSpacing gs with
  | strayBackslash l rest =>
    refine .inl fun gap opens => .inl ?_
    rw [readToken, readToken, skipSpacing_stray opens spacing, spacing]
    rfl
  | token rest =>
    have behind (gap : List Glyph) := skipSpacing_append spacing gap
    cases rest with
    | nil =>
      -- All of the glyphs are a gap themselves, so the token starts behind them.
      refine .inr fun gap t opens ok => ?_
      have here : readToken finish divides (gs ++ gap) = readToken finish divides gap := by
        rw [readToken, behind, if_pos rfl]
        rfl
      rw [here] at ok ⊢
      by_cases ends : t.kind = .endOfInput
      · obtain ⟨l, at_end⟩ := readToken_end ok ends
        rw [at_end]
        exact List.length_pos_iff.mpr opens.ne_nil
      · exact readToken_rest_length ok ends
    | cons g rest =>
      have spaced (gap : List Glyph) : readToken finish divides (gs ++ gap) =
          readLexeme divides g.location (skipComment (g :: rest ++ gap)) :=
        readToken_eq (behind gap)
      have alone := spaced []
      rw [List.append_nil, List.append_nil] at alone
      rcases skipComment_gap g rest with ⟨nonempty, split⟩ | short
      · obtain ⟨h, hs, eq⟩ := List.exists_cons_of_ne_nil nonempty
        simp only [StopsBefore, GoesInto, spaced, alone, split, eq]
        exact readLexeme_gap divides g.location h hs
      · refine .inr fun gap t opens _ => ?_
        rw [spaced]
        exact (readLexeme_rest_length_le _ _ _).trans_lt (short gap opens)

/-- A gap at the front is skipped. -/
theorem readToken_skipGap (is_gap : (bytesOf gap).IsGap) :
    readToken finish divides (gap ++ gs) = readToken finish divides gs := by
  rw [readToken, skipSpacing_gap is_gap]
  rfl

/-- A token that is read before a gap is read before any other, and it leaves the same before it. -/
theorem readToken_beside (opens : OpensGap gap) (opens' : OpensGap gap') (solid : skipBlanks gap = gap)
    (ok : (readToken finish divides (gs ++ gap)).outcome = .ok t)
    (before : gap <:+ (readToken finish divides (gs ++ gap)).rest) :
    (readToken finish divides (gs ++ gap')).outcome = .ok t ∧
      ∃ left, (readToken finish divides (gs ++ gap)).rest = left ++ gap ∧
        ((readToken finish divides (gs ++ gap')).rest = left ++ gap' ∨
          (left = [] ∧ (readToken finish divides (gs ++ gap')).rest = skipBlanks gap')) := by
  rcases readToken_gap finish divides gs with stops | goes
  · have here := stops gap opens
    have there := stops gap' opens'
    refine ⟨there.outcome.trans (here.outcome.symm.trans ok), _, ?_, there.rest⟩
    rcases here.rest with eq | ⟨none, eq⟩
    · exact eq
    · rw [eq, none, solid]
      rfl
  · exact absurd (goes gap t opens ok) (Nat.not_lt_of_le before.length_le)

end AwkCore.Scanner
