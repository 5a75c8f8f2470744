import AwkCore.Proofs.Scanner.Reads

/-!
# Where lexemes start

Before a token stand blanks and continued lines, and the first glyph behind them starts its lexeme.
The place of that glyph is the place of the token, or of the complaint about it, whatever lines the
lexeme goes on to.
-/
namespace AwkCore

namespace Bytes

/-- Blanks and continued lines. -/
inductive IsGap : Bytes → Prop
  | nil : IsGap []
  | blank {b : Byte} {bs : Bytes} (is : Byte.isBlank b = true) (later : IsGap bs) : IsGap (b :: bs)
  | continued {bs : Bytes} (later : IsGap bs) : IsGap (Byte.backslash :: Byte.newline :: bs)

/-- Neither a blank nor a continued line comes first. -/
structure NoGap (text : Bytes) : Prop where
  not_blank : ∀ b ∈ text.head?, Byte.isBlank b = false
  not_continued : ¬ [Byte.backslash, Byte.newline] <+: text

end Bytes

namespace Scanner

variable {divides : Bool} {finish l : Location} {g : Glyph} {gs rest tail : List Glyph} {t : Token}

/-- A lexeme that starts at a glyph, behind a gap. -/
structure Starts (gs : List Glyph) (g : Glyph) (tail : List Glyph) : Prop where
  behind : ∃ gap, gs = gap ++ g :: tail ∧ (bytesOf gap).IsGap
  no_gap : (bytesOf (g :: tail)).NoGap

theorem Starts.blank (starts : Starts gs g tail) {b : Glyph} (is : Byte.isBlank b.byte = true) :
    Starts (b :: gs) g tail := by
  obtain ⟨gap, split, is_gap⟩ := starts.behind
  exact ⟨⟨b :: gap, by rw [split, List.cons_append], .blank is is_gap⟩, starts.no_gap⟩

theorem Starts.continued (starts : Starts gs g tail) {b c : Glyph} (slash : b.byte = Byte.backslash)
    (newline : c.byte = Byte.newline) : Starts (b :: c :: gs) g tail := by
  obtain ⟨gap, split, is_gap⟩ := starts.behind
  refine ⟨⟨b :: c :: gap, by rw [split, List.cons_append, List.cons_append], ?_⟩, starts.no_gap⟩
  rw [bytesOf, List.map_cons, List.map_cons, slash, newline]
  exact .continued is_gap

theorem Starts.here (solid : ¬ Byte.isBlank g.byte = true)
    (other : g.byte = Byte.backslash → ∀ h ∈ tail.head?, h.byte ≠ Byte.newline) :
    Starts (g :: tail) g tail := by
  refine ⟨⟨[], rfl, .nil⟩, ?_, ?_⟩
  · intro b head
    obtain rfl := Option.some.inj head
    simpa using solid
  · rintro ⟨more, split⟩
    obtain ⟨slash, behind⟩ := List.cons.inj split
    obtain ⟨h, hs, rfl, newline, _⟩ := List.map_eq_cons_iff.mp behind.symm
    exact other slash.symm h rfl newline

/-- Spacing that leads to a token stops at the first glyph of a lexeme, or at the end. -/
theorem starts_of_token (spacing : skipSpacing gs = .token (g :: tail)) : Starts gs g tail := by
  fun_induction skipSpacing gs with
  | case1 => cases spacing
  | case2 => cases spacing
  | case3 => cases spacing
  | case4 h solid other =>
    cases spacing
    exact .here solid fun slash => absurd slash other
  | case5 b h gs blank ih => exact (ih spacing).blank blank
  | case6 b h gs _ slash newline ih => exact (ih spacing).continued slash newline
  | case7 => cases spacing
  | case8 b h gs solid other =>
    cases spacing
    exact .here solid fun slash => absurd slash other

/-- A backslash that continues no line starts a lexeme. -/
theorem starts_of_strayBackslash (spacing : skipSpacing gs = .strayBackslash l rest) :
    ∃ g, Starts gs g rest ∧ g.location = l ∧ g.byte = Byte.backslash := by
  fun_induction skipSpacing gs with
  | case1 => cases spacing
  | case2 => cases spacing
  | case3 b solid slash =>
    cases spacing
    exact ⟨b, Starts.here solid fun _ _ none => absurd none (by simp), rfl, slash⟩
  | case4 => cases spacing
  | case5 b h gs blank ih =>
    obtain ⟨g, starts, place⟩ := ih spacing
    exact ⟨g, starts.blank blank, place⟩
  | case6 b h gs _ slash newline ih =>
    obtain ⟨g, starts, place⟩ := ih spacing
    exact ⟨g, starts.continued slash newline, place⟩
  | case7 b h gs solid slash other =>
    cases spacing
    refine ⟨b, Starts.here solid fun _ h head => ?_, rfl, slash⟩
    rwa [← Option.some.inj head]
  | case8 => cases spacing

/-- A step whose token or complaint is at some place. -/
structure Step.At (l : Location) (a : Step) : Prop where
  token : ∀ t, a.outcome = .ok t → t.location = l
  complaint : ∀ failure, a.outcome = .error failure → ∃ message, failure = .lexical l message

theorem Step.At.of_ok {a : Step} (ok : a.outcome = .ok t) (place : t.location = l) : a.At l := by
  constructor
  · intro u ok'
    rw [← Except.ok.inj (ok.symm.trans ok'), place]
  · intro failure error
    cases ok.symm.trans error

theorem Step.At.of_error {a : Step} {message : String}
    (error : a.outcome = .error (.lexical l message)) : a.At l := by
  constructor
  · intro t ok
    cases error.symm.trans ok
  · intro failure error'
    exact ⟨message, (Except.error.inj (error.symm.trans error')).symm⟩

theorem Step.At.plain (kind : Kind) (text : Bytes) (l : Location) (rest : List Glyph) :
    (Step.plain kind text l rest).At l := .of_ok rfl rfl

theorem Step.At.refuse (l : Location) (message : String) (rest : List Glyph) :
    (Step.refuse l message rest).At l := .of_error rfl

theorem readWord_at (l : Location) (gs : List Glyph) : (readWord l gs).At l := by
  unfold readWord
  dsimp only
  split
  · exact .plain _ _ l _
  split
  · exact .plain _ _ l _
  split
  · exact .plain _ _ l _
  · exact .plain _ _ l _

theorem readNumber_at (l : Location) (g : Glyph) (gs : List Glyph) : (readNumber l g gs).At l := by
  unfold readNumber
  split
  · exact .of_ok rfl rfl
  · exact .refuse l _ _

theorem readQuoted_at (d : Delimiter) (kind : Kind) (l : Location) (gs : List Glyph) :
    (readQuoted d kind l gs).At l := by
  unfold readQuoted
  dsimp only
  split
  · exact .of_ok rfl rfl
  · exact .of_error rfl
  · exact .of_error rfl

theorem readOperator_at (l : Location) (g : Glyph) (gs : List Glyph) :
    (readOperator l g gs).At l := by
  unfold readOperator
  dsimp only
  split
  · split
    · split
      · exact .plain _ _ l _
      · exact .plain _ _ l _
    split
    · exact .plain _ _ l _
    split
    · exact .plain _ _ l _
    · exact .refuse l _ _
  · split
    · exact .plain _ _ l _
    · exact .refuse l _ _

theorem readLexeme_at (divides : Bool) (l : Location) (gs : List Glyph) :
    (readLexeme divides l gs).At l := by
  cases gs with
  | nil => exact .plain _ _ l _
  | cons g gs =>
    rw [readLexeme]
    split_ifs
    · exact .plain _ _ l _
    · exact readWord_at l _
    · exact readQuoted_at _ _ l gs
    · exact readNumber_at l g gs
    · exact readQuoted_at _ _ l gs
    · exact .refuse l _ _
    · exact readOperator_at l g gs

/-- Behind the mark of a comment comes the end of its line. -/
theorem skipComment_or (g : Glyph) (tail : List Glyph) : skipComment (g :: tail) = g :: tail ∨
    ∀ h ∈ (skipComment (g :: tail)).head?, h.byte = Byte.newline := by
  rw [skipComment]
  split
  · refine .inr fun h head => ?_
    have stop := List.head?_dropWhile_not (fun g : Glyph => decide (g.byte ≠ Byte.newline)) tail
    rw [head] at stop
    simpa using stop
  · exact .inl rfl

/-- Behind a comment, a lexeme leaves part of what follows the mark of the comment. -/
theorem readLexeme_skipComment_rest (divides : Bool) (l : Location) (g : Glyph)
    (tail : List Glyph) : (readLexeme divides l (skipComment (g :: tail))).rest <:+ tail := by
  rw [skipComment]
  split
  · have comment : tail.dropWhile (·.byte ≠ Byte.newline) <:+ tail := List.dropWhile_suffix _
    cases after : tail.dropWhile (·.byte ≠ Byte.newline) with
    | nil => exact List.nil_suffix
    | cons h hs =>
      rw [after] at comment
      exact ((readLexeme_rest_suffix divides l h hs).trans (List.suffix_cons h hs)).trans comment
  · exact readLexeme_rest_suffix divides l g tail

theorem readLexeme_newline (newline : g.byte = Byte.newline) :
    readLexeme divides l (skipComment (g :: tail)) = .plain .newline [Byte.newline] l tail := by
  have mark : Byte.newline ≠ 0x23 := by decide
  rw [skipComment, newline, if_neg mark, readLexeme, if_pos newline]

/-- A token other than the end of input has the place of its first glyph, and uses it. -/
theorem readToken_starts (ok : (readToken finish divides gs).outcome = .ok t)
    (more : t.kind ≠ .endOfInput) : ∃ g tail, Starts gs g tail ∧ t.location = g.location ∧
      (g.byte = Byte.newline → t.kind = .newline) ∧
      (readToken finish divides gs).rest <:+ tail := by
  cases spacing : skipSpacing gs with
  | strayBackslash l rest =>
    rw [readToken, spacing] at ok
    cases ok
  | token rest =>
    rw [readToken_eq spacing] at ok ⊢
    cases rest with
    | nil =>
      cases ok
      exact absurd rfl more
    | cons g tail =>
      refine ⟨g, tail, starts_of_token spacing, (readLexeme_at divides _ _).token t ok,
        fun newline => ?_, readLexeme_skipComment_rest divides _ g tail⟩
      rw [readLexeme_newline newline] at ok
      cases ok
      rfl

/-- A complaint has the place of the first glyph of a lexeme, which is not the end of a line. -/
theorem readToken_complains {failure : Failure}
    (error : (readToken finish divides gs).outcome = .error failure) :
    ∃ g tail message, Starts gs g tail ∧ failure = .lexical g.location message ∧
      g.byte ≠ Byte.newline := by
  cases spacing : skipSpacing gs with
  | strayBackslash l rest =>
    obtain ⟨g, starts, rfl, slash⟩ := starts_of_strayBackslash spacing
    rw [readToken, spacing] at error
    obtain rfl := Except.error.inj error
    have inner : g.byte ≠ Byte.newline := by
      rw [slash]
      decide
    exact ⟨g, rest, _, starts, rfl, inner⟩
  | token rest =>
    rw [readToken_eq spacing] at error
    cases rest with
    | nil => cases error
    | cons g tail =>
      obtain ⟨message, lexical⟩ := (readLexeme_at divides _ _).complaint failure error
      refine ⟨g, tail, message, starts_of_token spacing, lexical, fun newline => ?_⟩
      rw [readLexeme_newline newline] at error
      cases error

end Scanner

end AwkCore
