import AwkCore.Scanner

/-!
# Every token uses part of the program

A token other than the end of input leaves fewer glyphs than it found, so scanning comes to an end.
`Scanner.advances` is the whole scan of a program: all calls up to the end of input or a failure.
-/
namespace AwkCore.Scanner

theorem skipSpacing_suffix {gs rest : List Glyph} (h : skipSpacing gs = .token rest) :
    rest <:+ gs := by
  fun_induction skipSpacing gs with
  | case1 =>
    cases h
    exact List.suffix_refl _
  | case2 =>
    cases h
    exact List.nil_suffix
  | case3 => cases h
  | case4 =>
    cases h
    exact List.suffix_refl _
  | case5 g next gs blank ih => exact (ih h).trans (List.suffix_cons _ _)
  | case6 g next gs solid slash newline ih =>
    exact (ih h).trans ((List.suffix_cons _ _).trans (List.suffix_cons _ _))
  | case7 => cases h
  | case8 =>
    cases h
    exact List.suffix_refl _

theorem skipComment_suffix (gs : List Glyph) : skipComment gs <:+ gs := by
  cases gs with
  | nil => exact List.suffix_refl _
  | cons g gs =>
    rw [skipComment]
    split
    · exact (List.dropWhile_suffix _).trans (List.suffix_cons _ _)
    · exact List.suffix_refl _

theorem readWord_rest_suffix {location : Location} {g : Glyph} {gs : List Glyph}
    (h : Byte.isNamePart g.byte = true) : (readWord location (g :: gs)).rest <:+ gs := by
  have word : (g :: gs).dropWhile (fun g => Byte.isNamePart g.byte) <:+ gs := by
    rw [List.dropWhile_cons, if_pos h]
    exact List.dropWhile_suffix _
  unfold readWord
  simp only [Step.plain]
  split
  · exact word
  · split
    · exact word
    · split
      · exact word
      · exact (List.dropWhile_suffix _).trans word

theorem fractionPart_length_pos {s : Bytes} (h : (Numeral.fractionPart s).1 ≠ []) :
    0 < (Numeral.fractionPart s).2 := by
  unfold Numeral.fractionPart at h ⊢
  split <;> simp_all

theorem numeral_length_pos {s : Bytes} {n : Numeral} (h : Numeral.read? s = some n) :
    0 < n.length := by
  simp only [Numeral.read?] at h
  split at h
  · simp at h
  · rename_i some_digit
    simp only [Option.some.injEq] at h
    subst h
    cases hw : Numeral.digits s with
    | cons d ds =>
      simp only [List.length_cons]
      omega
    | nil =>
      have pointed := fractionPart_length_pos (s := s) (by simpa [hw] using some_digit)
      simp only [List.length_nil, List.drop_zero]
      omega

theorem readNumber_rest_suffix (location : Location) (g : Glyph) (gs : List Glyph) :
    (readNumber location g gs).rest <:+ gs := by
  unfold readNumber
  split
  · rename_i n read
    obtain ⟨k, length⟩ : ∃ k, n.length = k + 1 := ⟨n.length - 1, by
      have := numeral_length_pos read
      omega⟩
    rw [length, List.drop_succ_cons]
    exact List.drop_suffix _ _
  · exact List.suffix_refl _

theorem readLiteral_rest_suffix (d : Delimiter) (used : Nat) (gs : List Glyph) :
    (readLiteral d used gs).rest <:+ gs := by
  fun_induction readLiteral d used gs with
  | case1 => exact List.nil_suffix
  | case2 g gs used ih => exact ih.trans (List.suffix_cons _ _)
  | case3 => exact List.suffix_cons _ _
  | case4 => exact List.suffix_refl _
  | case5 g gs opens more slash e =>
    rename_i ih
    exact ih.trans (List.suffix_cons _ _)
  | case6 g gs opens more other ih => exact ih.trans (List.suffix_cons _ _)

theorem readOperator_rest_suffix (location : Location) (g : Glyph) (gs : List Glyph) :
    (readOperator location g gs).rest <:+ gs := by
  unfold readOperator
  simp only [Step.plain, unexpected, Step.refuse]
  repeat' split
  all_goals first | exact List.drop_suffix _ _ | exact List.suffix_refl _

theorem readLexeme_rest_suffix (divides : Bool) (location : Location) (g : Glyph)
    (gs : List Glyph) :
    (readLexeme divides location (g :: gs)).rest <:+ gs := by
  simp only [readLexeme]
  split
  · exact List.suffix_refl _
  split
  · rename_i start
    exact readWord_rest_suffix (by simp [Byte.isNamePart, start])
  split
  · exact readLiteral_rest_suffix _ _ _
  split
  · exact readNumber_rest_suffix _ _ _
  split
  · exact readLiteral_rest_suffix _ _ _
  split
  · exact List.suffix_refl _
  · exact readOperator_rest_suffix _ _ _

/-- What a token is read from, when space and comments are behind. -/
theorem readToken_eq {divides : Bool} {finish : Location} {gs rest : List Glyph}
    (h : skipSpacing gs = .token rest) : readToken finish divides gs =
      readLexeme divides (placeOf finish rest) (skipComment rest) := by
  rw [readToken, h]

/-- A token starts behind the space and the comment before it. -/
theorem readToken_behind {finish : Location} {divides : Bool} {gs : List Glyph} {t : Token}
    (ok : (readToken finish divides gs).outcome = .ok t) :
    ∃ l after, after <:+ gs ∧ readToken finish divides gs = readLexeme divides l after := by
  cases spacing : skipSpacing gs with
  | strayBackslash location rest =>
    rw [readToken, spacing] at ok
    cases ok
  | token rest =>
    exact ⟨placeOf finish rest, skipComment rest,
      (skipComment_suffix rest).trans (skipSpacing_suffix spacing), readToken_eq spacing⟩

theorem readToken_rest_suffix {finish : Location} {divides : Bool} {gs : List Glyph} {t : Token}
    (ok : (readToken finish divides gs).outcome = .ok t) :
    (readToken finish divides gs).rest <:+ gs := by
  obtain ⟨l, after, suffix, eq⟩ := readToken_behind ok
  rw [eq]
  cases after with
  | nil => exact List.nil_suffix
  | cons g after =>
    exact (readLexeme_rest_suffix _ _ _ _).trans ((List.suffix_cons _ _).trans suffix)

/-- A token other than the end of input uses at least one glyph. -/
theorem readToken_rest_length {finish : Location} {divides : Bool} {gs : List Glyph} {t : Token}
    (ok : (readToken finish divides gs).outcome = .ok t) (more : t.kind ≠ .endOfInput) :
    (readToken finish divides gs).rest.length < gs.length := by
  obtain ⟨l, after, suffix, eq⟩ := readToken_behind ok
  rw [eq] at ok ⊢
  cases after with
  | nil =>
    cases ok
    exact absurd rfl more
  | cons g after =>
    have rest := (readLexeme_rest_suffix divides l g after).length_le
    have whole := suffix.length_le
    rw [List.length_cons] at whole
    omega

theorem next_glyphs_length {s t : Scanner} (ok : s.next.outcome = .ok t)
    (more : t.current.kind ≠ .endOfInput) :
    t.stream.glyphs.length < s.stream.glyphs.length := by
  simp only [next] at ok
  split at ok
  · simp at ok
  · simp only at ok
    split at ok
    · simp at ok
    · cases step : (readToken s.stream.finish s.current.kind.producesValue
          s.stream.glyphs).outcome with
      | error failure => simp [step, Except.map] at ok
      | ok token =>
        simp only [step, Except.map, Except.ok.injEq] at ok
        subst ok
        exact readToken_rest_length step more

/-- All calls for a token up to the first that gives the end of input or fails. -/
def advances (s : Scanner) : List Advance :=
  match _ok : s.next.outcome with
  | .error _ => [s.next]
  | .ok t => if _more : t.current.kind = .endOfInput then [s.next] else s.next :: advances t
termination_by s.stream.glyphs.length
decreasing_by exact next_glyphs_length _ok _more

end AwkCore.Scanner
