import AwkCore.Proofs.Scanner.Reads

/-!
# Scanning past the end of a line

No reader looks past a line feed at which it stops. So a token that is read from glyphs that end a
line is read in the same way when more glyphs stand behind them, and a scan of these glyphs goes on
with what is behind.
-/
namespace AwkCore.Scanner

/-- The last glyph, if there is one, is a line feed. -/
def EndsLine (gs : List Glyph) : Prop := ∀ g, gs.getLast? = some g → g.byte = Byte.newline

/-- The same step with more glyphs left behind it. -/
def Step.before (a : Step) (more : List Glyph) : Step := { a with rest := a.rest ++ more }

def Literal.before (l : Literal) (more : List Glyph) : Literal := { l with rest := l.rest ++ more }

variable {divides : Bool} {finish : Location} {previous last : Kind} {l : Location}
  {g : Glyph} {gs hs rest : List Glyph} {t : Token} {ts : List Token} {warnings : List Diagnostic}

theorem EndsLine.suffix (ends : EndsLine gs) (suffix : hs <:+ gs) : EndsLine hs := by
  obtain ⟨before, rfl⟩ := suffix
  intro g last
  apply ends g
  rw [List.getLast?_append, last]
  rfl

theorem EndsLine.tail (ends : EndsLine (g :: gs)) : EndsLine gs := ends.suffix (List.suffix_cons g gs)

theorem EndsLine.some_newline (ends : EndsLine gs) (nonempty : gs ≠ []) :
    ∃ g ∈ gs, g.byte = Byte.newline :=
  ⟨gs.getLast nonempty, List.getLast_mem nonempty, ends _ (List.getLast?_eq_getLast_of_ne_nil nonempty)⟩

/-- Behind a glyph other than a line feed the line goes on. -/
theorem EndsLine.tail_ne_nil (ends : EndsLine (g :: gs)) (inner : g.byte ≠ Byte.newline) :
    gs ≠ [] := by
  rintro rfl
  exact inner (ends g rfl)

section Rows

variable {α : Type} {p : α → Bool} {xs : List α}

theorem takeWhile_append_of_stop (stop : ∃ x ∈ xs, p x = false) (ys : List α) :
    (xs ++ ys).takeWhile p = xs.takeWhile p := by
  obtain ⟨x, mem, no⟩ := stop
  rw [List.takeWhile_append, if_neg]
  intro length
  have whole := (List.takeWhile_prefix p).eq_of_length length
  rw [List.takeWhile_eq_self_iff.mp whole x mem] at no
  contradiction

theorem dropWhile_ne_nil (stop : ∃ x ∈ xs, p x = false) : xs.dropWhile p ≠ [] := by
  simpa using stop

theorem dropWhile_append_of_stop (stop : ∃ x ∈ xs, p x = false) (ys : List α) :
    (xs ++ ys).dropWhile p = xs.dropWhile p ++ ys := by
  rw [List.dropWhile_append, if_neg (by simpa using stop)]

end Rows

/-- What is skipped or taken byte by byte stops at a line feed. -/
theorem EndsLine.stop (ends : EndsLine gs) (nonempty : gs ≠ []) (p : Byte → Bool)
    (stops : p Byte.newline = false) : ∃ g ∈ gs, p g.byte = false := by
  obtain ⟨g, mem, newline⟩ := ends.some_newline nonempty
  exact ⟨g, mem, newline ▸ stops⟩

theorem skipBlanks_append (ends : EndsLine gs) (nonempty : gs ≠ []) (more : List Glyph) :
    skipBlanks (gs ++ more) = skipBlanks gs ++ more :=
  dropWhile_append_of_stop (ends.stop nonempty Byte.isBlank (by decide)) more

theorem readWord_append (ends : EndsLine gs) (nonempty : gs ≠ []) (more : List Glyph) :
    readWord l (gs ++ more) = (readWord l gs).before more := by
  have stop := ends.stop nonempty Byte.isNamePart (by decide)
  have behind := dropWhile_ne_nil stop
  have blanks := skipBlanks_append (ends.suffix (List.dropWhile_suffix _)) behind more
  rw [readWord, readWord, takeWhile_append_of_stop stop, dropWhile_append_of_stop stop,
    List.head?_append_of_ne_nil _ behind, blanks]
  split
  · rfl
  split
  · rfl
  split <;> rfl

section Literal

variable {d : Delimiter}

theorem hexDigits_append (ends : EndsLine gs) (nonempty : gs ≠ []) (more : List Glyph) :
    hexDigits (gs ++ more) = hexDigits gs := by
  match gs with
  | [g] =>
    have newline : g.byte = Byte.newline := ends g rfl
    have other : Byte.hexValue? Byte.newline = none := by decide
    simp [hexDigits, newline, other]
  | g :: h :: gs => rfl

theorem octalDigits_append (ends : EndsLine gs) (nonempty : gs ≠ []) (more : List Glyph) :
    octalDigits (gs ++ more) = octalDigits gs := by
  have stop := ends.stop nonempty Byte.isOctalDigit (by decide)
  match gs with
  | [g] => exact congrArg (List.map _) (takeWhile_append_of_stop stop (more.take 2))
  | [g, h] => exact congrArg (List.map _) (takeWhile_append_of_stop stop (more.take 1))
  | g :: h :: i :: gs => rfl

theorem readEscape_append (ends : EndsLine gs) (nonempty : gs ≠ []) (more : List Glyph) :
    readEscape d (gs ++ more) = readEscape d gs := by
  cases gs with
  | nil => contradiction
  | cons g gs =>
    have octal := octalDigits_append ends nonempty more
    rw [List.cons_append] at octal ⊢
    by_cases newline : g.byte = Byte.newline
    · rw [readEscape, readEscape, if_pos newline, if_pos newline]
    · have hex := hexDigits_append ends.tail (ends.tail_ne_nil newline) more
      rw [readEscape, readEscape, hex, octal]

/-- A literal that is closed before more glyphs is read alike when each escape in it is. -/
theorem readLiteral_before {used : ℕ} {more : List Glyph}
    (escapes : ∀ hs, hs <:+ gs → hs ≠ [] → readEscape d (hs ++ more) = readEscape d hs)
    (within : (readLiteral d used gs).ending ≠ .exhausted) :
    readLiteral d used (gs ++ more) = (readLiteral d used gs).before more := by
  have later {g : Glyph} {gs : List Glyph}
      (escapes : ∀ hs, hs <:+ g :: gs → hs ≠ [] → readEscape d (hs ++ more) = readEscape d hs) :
      ∀ hs, hs <:+ gs → hs ≠ [] → readEscape d (hs ++ more) = readEscape d hs :=
    fun hs suffix => escapes hs (suffix.trans (List.suffix_cons g gs))
  fun_induction readLiteral d used gs with
  | case1 => contradiction
  | case2 g gs used ih => exact ih (later escapes) within
  | case3 g gs closes =>
    rw [List.cons_append, readLiteral, if_pos closes]
    rfl
  | case4 g gs opens newline =>
    rw [List.cons_append, readLiteral, if_neg opens, if_pos newline]
    rfl
  | case5 g gs opens other slash e =>
    rename_i ih
    have nonempty : gs ≠ [] := by
      rintro rfl
      simp [readLiteral, Literal.prepend] at within
    rw [List.cons_append, readLiteral, if_neg opens, if_neg other, if_pos slash]
    dsimp only
    rw [later escapes gs (List.suffix_refl gs) nonempty, ih (later escapes) within]
    rfl
  | case6 g gs opens other plain ih =>
    rw [List.cons_append, readLiteral, if_neg opens, if_neg other, if_neg plain,
      ih (later escapes) within]
    rfl

theorem readLiteral_append {used : ℕ} (ends : EndsLine gs)
    (within : (readLiteral d used gs).ending ≠ .exhausted) (more : List Glyph) :
    readLiteral d used (gs ++ more) = (readLiteral d used gs).before more :=
  readLiteral_before (fun _ suffix nonempty => readEscape_append (ends.suffix suffix) nonempty more) within

theorem readQuoted_append {kind : Kind} (ends : EndsLine gs)
    (ok : (readQuoted d kind l gs).outcome = .ok t) (more : List Glyph) :
    readQuoted d kind l (gs ++ more) = (readQuoted d kind l gs).before more := by
  have within : (readLiteral d 0 gs).ending ≠ .exhausted := by
    intro exhausted
    simp [readQuoted, exhausted] at ok
  rw [readQuoted, readQuoted, readLiteral_append ends within]
  rfl

end Literal

theorem numberTail_append {stage : Numeral.Stage} (ends : EndsLine gs) (nonempty : gs ≠ [])
    (more : List Glyph) : numberTail stage (gs ++ more) = numberTail stage gs := by
  fun_induction numberTail stage gs with
  | case1 => contradiction
  | case2 stage g gs joined next at_next ih =>
    have inner : g.byte ≠ Byte.newline := by
      intro newline
      rw [Numeral.Stage.next?_none (.inr newline)] at at_next
      contradiction
    rw [List.cons_append, numberTail, if_pos joined, at_next]
    dsimp only
    rw [ih ends.tail (ends.tail_ne_nil inner)]
  | case3 stage g gs joined at_next =>
    rw [List.cons_append, numberTail, if_pos joined, at_next]
  | case4 stage g gs loose => rw [List.cons_append, numberTail, if_neg loose]

/-- A number is read alike when more glyphs give nothing to the bytes in which it is looked for. -/
theorem readNumber_before {more : List Glyph}
    (window : numberWindow g (gs ++ more) = numberWindow g gs) :
    readNumber l g (gs ++ more) = (readNumber l g gs).before more := by
  cases read : Numeral.read? (numberWindow g gs) with
  | none =>
    rw [readNumber_none read, readNumber_none (window ▸ read)]
    rfl
  | some n =>
    have within : n.length ≤ (g :: gs).length := by
      have length := numeral_length_le read
      have joined := (List.takeWhile_sublist (l := gs) Glyph.joined).length_le
      rw [List.length_cons]
      omega
    rw [readNumber_some read, readNumber_some (window ▸ read), window, ← List.cons_append,
      List.drop_append_of_le_length within]
    rfl

theorem readNumber_append (ends : EndsLine (g :: gs)) (inner : g.byte ≠ Byte.newline)
    (more : List Glyph) : readNumber l g (gs ++ more) = (readNumber l g gs).before more := by
  apply readNumber_before
  rw [numberWindow, numberTail_append ends.tail (ends.tail_ne_nil inner)]
  rfl

theorem readOperator_append (ends : EndsLine (g :: gs)) (inner : g.byte ≠ Byte.newline)
    (more : List Glyph) : readOperator l g (gs ++ more) = (readOperator l g gs).before more := by
  match gs with
  | [] => exact absurd (ends g rfl) inner
  | [h] =>
    have newline : h.byte = Byte.newline := ends h rfl
    rw [List.cons_append, readOperator_single (.inr newline), readOperator_single (.inr newline)]
    split <;> rfl
  | h :: i :: gs =>
    simp only [readOperator, List.cons_append, List.take_succ_cons, List.take_zero,
      List.drop_succ_cons, List.drop_zero]
    split
    · split
      · split <;> rfl
      · split
        · rfl
        · split <;> rfl
    · split <;> rfl

theorem readLexeme_append (ends : EndsLine gs) (nonempty : gs ≠ [])
    (ok : (readLexeme divides l gs).outcome = .ok t) (more : List Glyph) :
    readLexeme divides l (gs ++ more) = (readLexeme divides l gs).before more := by
  cases gs with
  | nil => contradiction
  | cons g gs =>
    simp only [List.cons_append, readLexeme] at ok ⊢
    split_ifs at ok ⊢ with newline word quote number slash null
    · rfl
    · exact readWord_append ends nonempty more
    · exact readQuoted_append ends.tail ok more
    · exact readNumber_append ends newline more
    · exact readQuoted_append ends.tail ok more
    · cases ok
    · exact readOperator_append ends newline more

/-- What is skipped before a token is skipped alike; when all is skipped, more of it may follow. -/
theorem skipSpacing_append (spacing : skipSpacing gs = .token rest) (more : List Glyph) :
    skipSpacing (gs ++ more) = if rest = [] then skipSpacing more else .token (rest ++ more) := by
  fun_induction skipSpacing gs with
  | case1 =>
    cases spacing
    rfl
  | case2 g blank =>
    cases spacing
    exact skipSpacing_blank blank more
  | case3 => cases spacing
  | case4 g solid other =>
    cases spacing
    exact skipSpacing_here solid other more
  | case5 g h gs blank ih =>
    rw [List.cons_append, skipSpacing_blank blank]
    exact ih spacing
  | case6 g h gs _ slash newline ih =>
    rw [List.cons_append, List.cons_append, skipSpacing_continued slash newline]
    exact ih spacing
  | case7 => cases spacing
  | case8 g h gs solid other =>
    cases spacing
    exact skipSpacing_here solid other _

theorem skipComment_append (ends : EndsLine gs) (nonempty : gs ≠ []) (more : List Glyph) :
    skipComment (gs ++ more) = skipComment gs ++ more ∧ skipComment gs ≠ [] := by
  cases gs with
  | nil => contradiction
  | cons g gs =>
    rw [List.cons_append, skipComment, skipComment]
    split_ifs with mark
    · have inner : g.byte ≠ Byte.newline := by
        rw [mark]
        decide
      have stop := ends.tail.stop (ends.tail_ne_nil inner) (fun b => b ≠ Byte.newline) (by decide)
      exact ⟨dropWhile_append_of_stop stop more, dropWhile_ne_nil stop⟩
    · exact ⟨rfl, nonempty⟩

theorem placeOf_append (nonempty : gs ≠ []) (finish finish' : Location) (more : List Glyph) :
    placeOf finish' (gs ++ more) = placeOf finish gs := by
  cases gs with
  | nil => contradiction
  | cons => rfl

/-- A token that is read before the end of a line is read alike when more glyphs follow. -/
theorem readToken_append (finish' : Location) (ends : EndsLine gs)
    (ok : (readToken finish divides gs).outcome = .ok t)
    (not_end : t.kind ≠ .endOfInput) (more : List Glyph) :
    readToken finish' divides (gs ++ more) = (readToken finish divides gs).before more := by
  cases spacing : skipSpacing gs with
  | strayBackslash l rest =>
    rw [readToken, spacing] at ok
    cases ok
  | token rest =>
    rw [readToken_eq spacing] at ok ⊢
    have nonempty : rest ≠ [] := by
      rintro rfl
      cases ok
      exact not_end rfl
    have behind := skipSpacing_append spacing more
    have ends_rest := ends.suffix (skipSpacing_suffix spacing)
    obtain ⟨comment, more_than_comment⟩ := skipComment_append ends_rest nonempty more
    rw [if_neg nonempty] at behind
    rw [readToken_eq behind, placeOf_append nonempty finish, comment]
    exact readLexeme_append (ends_rest.suffix (skipComment_suffix rest)) more_than_comment ok more

/-- Where the input ends with a line, all that is left before the end of input is a gap. -/
theorem EndsLine.skipSpacing_eq (ends : EndsLine gs)
    (ok : (readToken finish divides gs).outcome = .ok t) (at_end : t.kind = .endOfInput) :
    skipSpacing gs = .token [] := by
  cases spacing : skipSpacing gs with
  | strayBackslash l rest =>
    rw [readToken, spacing] at ok
    cases ok
  | token rest =>
    by_contra more
    have nonempty : rest ≠ [] := by
      rintro rfl
      exact more rfl
    obtain ⟨_, more_than_comment⟩ :=
      skipComment_append (ends.suffix (skipSpacing_suffix spacing)) nonempty []
    obtain ⟨g, here, eq⟩ := List.exists_cons_of_ne_nil more_than_comment
    rw [readToken_eq spacing, eq] at ok
    exact (readLexeme_spelled ok).1.not_end at_end

/-- Where the input ends with a line, more glyphs are read as if nothing were before them. -/
theorem readToken_append_end (finish' : Location) (ends : EndsLine gs)
    (ok : (readToken finish divides gs).outcome = .ok t) (at_end : t.kind = .endOfInput)
    (more : List Glyph) : readToken finish' divides (gs ++ more) = readToken finish' divides more := by
  rw [readToken, readToken, skipSpacing_append (ends.skipSpacing_eq ok at_end), if_pos rfl]

/-- A scan of glyphs that end a line is a part of the scan with more glyphs behind them. -/
theorem Passes.append (passes : Passes finish previous gs ts warnings last rest)
    (ends : EndsLine gs) (finish' : Location) (more : List Glyph) :
    Passes finish' previous (gs ++ more) ts warnings last (rest ++ more) := by
  induction passes with
  | done => exact .done
  | more read not_end later ih =>
    have ok := congrArg Step.outcome read
    have suffix := readToken_rest_suffix ok
    rw [read] at suffix
    have whole := readToken_append finish' ends ok not_end more
    rw [read] at whole
    exact .more whole not_end (ih (ends.suffix suffix))

end AwkCore.Scanner
