import AwkCore.Proofs.Scanner.Reads
import AwkCore.Proofs.Scanner.Written

/-!
# Rendered tokens are scanned back

The tokens that a scan gives up to the end of a line form a chain: each is spelled as its place after
the one before allows, and a function has a parenthesis behind it. A chain that is rendered is
scanned into the same chain.
-/
namespace AwkCore

/-- A row of tokens that starts after a token of some kind and stops at the end of a line. -/
inductive Token.Chain : Kind → List Token → Prop
  | last {previous : Kind} {t : Token} (spelled : t.Spelled previous.producesValue)
      (ends : t.kind = .newline) : Chain previous [t]
  | more {previous : Kind} {t u : Token} {ts : List Token}
      (spelled : t.Spelled previous.producesValue)
      (called : t.kind = .function → u.kind = .operator .leftParen)
      (later : Chain t.kind (u :: ts)) : Chain previous (t :: u :: ts)

/-- A byte that is not skipped before a token. -/
def Byte.Solid (b : Byte) : Prop := isBlank b = false ∧ b ≠ backslash ∧ b ≠ 0x23

instance (b : Byte) : Decidable b.Solid := inferInstanceAs (Decidable (_ ∧ _))

/-- The bytes of a class are solid when the bytes that are skipped are not in it. -/
theorem Byte.Solid.of_class (p : Byte → Bool) {b : Byte} (is : p b = true)
    (others : p 0x20 = false ∧ p 0x09 = false ∧ p backslash = false ∧ p 0x23 = false) : b.Solid := by
  obtain ⟨space, tab, slash, mark⟩ := others
  have ne {c : Byte} (other : p c = false) : b ≠ c := by
    rintro rfl
    rw [is] at other
    contradiction
  exact ⟨by simp [isBlank, ne space, ne tab], ne slash, ne mark⟩

theorem Bytes.IsWord.solid {w : Bytes} (word : w.IsWord) : ∃ b bs, w = b :: bs ∧ b.Solid := by
  obtain ⟨⟨b, head, start⟩, _⟩ := word
  obtain ⟨bs, rfl⟩ := List.head?_eq_some_iff.mp head
  exact ⟨b, bs, rfl, .of_class Byte.isNameStart start (by decide)⟩

theorem Token.Spelled.solid {divides : Bool} {t : Token} (spelled : t.Spelled divides) :
    ∃ b bs, t.written = b :: bs ∧ b.Solid := by
  cases spelled with
  | newline => exact ⟨_, _, rfl, by decide⟩
  | keyword word => exact word.solid
  | builtin word => exact word.solid
  | function word => exact word.solid
  | name word => exact word.solid
  | string => exact ⟨_, _, rfl, by decide⟩
  | regex => exact ⟨_, _, rfl, by decide⟩
  | number start =>
    refine ⟨_, _, rfl, ?_⟩
    rcases start with digit | rfl
    · exact .of_class Byte.isDigit digit (by decide)
    · decide
  | operator spelled =>
    obtain ⟨b, bs, rfl, _, _, _, _, _, _, blank, backslash, mark⟩ := spelled.starts
    exact ⟨b, bs, rfl, blank, backslash, mark⟩

theorem Operator.Spelled.eq_parenthesis {w : Bytes} (h : Spelled .leftParen w) : w = [0x28] := by
  cases h with
  | own => decide

theorem Token.Spelled.written_newline {divides : Bool} {t : Token} (spelled : t.Spelled divides)
    (newline : t.kind = .newline) : t.written = [Byte.newline] := by
  cases spelled with
  | newline => rfl
  | _ => contradiction

theorem Token.Spelled.written_parenthesis {divides : Bool} {t : Token}
    (spelled : t.Spelled divides) (parenthesis : t.kind = .operator .leftParen) :
    t.written = [0x28] := by
  cases spelled with
  | operator spelled =>
    cases parenthesis
    exact spelled.eq_parenthesis
  | _ => contradiction

open Scanner in
/-- What is rendered behind a token of a chain may follow it. -/
theorem Token.Chain.follows {t u : Token} {ts : List Token}
    (chain : Chain t.kind (u :: ts))
    (called : t.kind = .function → u.kind = .operator .leftParen) :
    Follows t.kind (renderAfter t.kind (u :: ts)) := by
  have spelled : u.Spelled t.kind.producesValue := by
    cases chain with
    | last spelled _ => exact spelled
    | more spelled _ _ => exact spelled
  refine .inr ?_
  rw [renderAfter, gap]
  by_cases newline : u.kind = .newline
  · have not_function : t.kind ≠ .function := by
      intro function
      have := called function
      rw [newline] at this
      contradiction
    rw [if_pos (.inl newline), spelled.written_newline newline]
    exact ⟨Byte.newline, rfl, by simp [not_function]⟩
  · rw [if_neg (by simp [newline, spelled.not_end])]
    by_cases function : t.kind = .function
    · rw [if_pos ⟨function, called function⟩, spelled.written_parenthesis (called function)]
      exact ⟨0x28, rfl, by simp [function]⟩
    · rw [if_neg fun both => function both.1]
      exact ⟨0x20, rfl, by simp [function]⟩

namespace Scanner

variable {divides : Bool} {finish : Location} {previous last : Kind} {g : Glyph}
  {gs left : List Glyph} {t u : Token} {ts us : List Token} {warnings : List Diagnostic}
  {more : Bytes}

theorem readToken_solid (solid : g.byte.Solid) :
    readToken finish divides (g :: gs) = readLexeme divides g.location (g :: gs) := by
  obtain ⟨blank, backslash, mark⟩ := solid
  rw [readToken_eq (skipSpacing_here (by simp [blank]) backslash gs), skipComment, if_neg mark]
  rfl

theorem readToken_newline (newline : g.byte = Byte.newline) : readToken finish divides (g :: gs) =
    .plain .newline [Byte.newline] g.location gs := by
  have solid : g.byte.Solid := by
    rw [newline]
    decide
  rw [readToken_solid solid, readLexeme, if_pos newline]

theorem readToken_quote (quote : g.byte = Delimiter.quote.byte) :
    readToken finish divides (g :: gs) = readQuoted .quote .string g.location gs := by
  have solid : g.byte.Solid := by
    rw [quote]
    decide
  rw [readToken_solid solid, readLexeme_quote quote]

theorem readToken_blank (blank : Byte.isBlank g.byte = true) :
    readToken finish divides (g :: gs) = readToken finish divides gs := by
  rw [readToken, skipSpacing_blank blank]
  rfl

theorem readToken_skipBlanks :
    readToken finish divides (skipBlanks gs) = readToken finish divides gs := by
  induction gs with
  | nil => rfl
  | cons g gs ih =>
    rw [skipBlanks, List.dropWhile_cons]
    split
    · rename_i blank
      rw [readToken_blank blank]
      exact ih
    · rfl

/-- No operator of two bytes starts with a parenthesis. -/
theorem pair?_parenthesis (b : Byte) : Vocabulary.pair? 0x28 b = none := by
  have others (o : Operator) : (ascii o.spelling).length = 2 →
      (ascii o.spelling).head? ≠ some 0x28 := by
    cases o <;> decide
  cases found : Vocabulary.pair? 0x28 b with
  | none => rfl
  | some o =>
    have spelling := Vocabulary.pair?_eq_some found
    exact absurd (congrArg List.head? spelling) (others o (congrArg List.length spelling))

theorem readToken_parenthesis (head : gs.head?.map Glyph.byte = some 0x28)
    (ok : (readToken finish divides gs).outcome = .ok t) : t.kind = .operator .leftParen := by
  obtain ⟨g, at_head, byte⟩ := Option.map_eq_some_iff.mp head
  obtain ⟨gs, rfl⟩ := List.head?_eq_some_iff.mp at_head
  have starts : Vocabulary.StartsOperator g.byte := by
    rw [byte]
    decide
  have not_slash : g.byte ≠ Delimiter.slash.byte := by
    rw [byte]
    decide
  have solid : g.byte.Solid := by
    rw [byte]
    decide
  rw [readToken_solid solid, readLexeme_operator starts fun slash => absurd slash not_slash] at ok
  have single : Vocabulary.single? g.byte = some .leftParen := by
    rw [byte]
    decide
  have no_star : g.byte ≠ 0x2a := by
    rw [byte]
    decide
  rw [readOperator] at ok
  split at ok
  · rw [if_neg fun stars => no_star stars.1, byte, pair?_parenthesis, ← byte, single] at ok
    cases ok
    rfl
  · rw [single] at ok
    cases ok
    rfl

/-- The tokens of a scan up to the end of a line form a chain. -/
theorem Passes.chain (passes : Passes finish previous gs ts warnings .newline left)
    (nonempty : ts ≠ []) : Token.Chain previous ts := by
  generalize stop : Kind.newline = last at passes
  induction passes with
  | done => contradiction
  | @more previous last gs rest left t ts warnings others read more later ih =>
    rcases readToken_spelled (congrArg Step.outcome read) with ⟨l, at_end⟩ | ⟨spelled, called⟩
    · rw [at_end] at read
      cases read
      contradiction
    · cases later with
      | done => exact .last spelled stop.symm
      | more read' =>
        refine .more spelled (fun function => ?_) (ih (by simp) stop)
        have parenthesis := called function
        rw [read] at parenthesis
        exact readToken_parenthesis parenthesis (congrArg Step.outcome read')

/-- Blanks at the front are skipped with the next token. -/
theorem Passes.skipBlanks (passes : Passes finish previous gs ts warnings last left)
    (nonempty : ts ≠ []) : Passes finish previous (skipBlanks gs) ts warnings last left := by
  cases passes with
  | done => contradiction
  | more read more later => exact .more (readToken_skipBlanks.trans read) more later

theorem Unbroken.suffix {hs : List Glyph} (unbroken : Unbroken gs) (suffix : hs <:+ gs) :
    Unbroken hs := by
  obtain ⟨before, rfl⟩ := suffix
  exact unbroken.right_of_append

/-- A token that is written after its gap is read back. -/
theorem readToken_written (finish : Location) (spelled : t.Spelled previous.producesValue)
    (follows : Follows t.kind more) (bytes : bytesOf gs = t.gap previous ++ t.written ++ more)
    (unbroken : Unbroken gs) :
    (readToken finish previous.producesValue gs).ReadsBack t gs more := by
  obtain ⟨b, w, written, solid⟩ := spelled.solid
  have at_token {gs : List Glyph} (bytes : bytesOf gs = t.written ++ more)
      (unbroken : Unbroken gs) :
      (readToken finish previous.producesValue gs).ReadsBack t gs more := by
    have read (l : Location) := readLexeme_written (l := l) spelled follows bytes unbroken
    rw [written] at bytes
    obtain ⟨g, gs, rfl, rfl, _⟩ := bytesOf_eq_cons bytes
    rw [readToken_solid solid]
    exact read g.location
  have gaps : t.gap previous = [] ∨ t.gap previous = [0x20] := by
    unfold Token.gap
    split
    · exact .inl rfl
    split
    · exact .inl rfl
    · exact .inr rfl
  rcases gaps with none | space
  · rw [none] at bytes
    exact at_token bytes unbroken
  · rw [space] at bytes
    obtain ⟨g, gs, rfl, is_space, bytes⟩ := bytesOf_eq_cons bytes
    obtain ⟨l, rest, suffix, behind, read⟩ := at_token bytes unbroken.tail
    have blank : Byte.isBlank g.byte = true := by
      rw [is_space]
      rfl
    rw [readToken_blank blank]
    exact ⟨l, rest, suffix.trans (List.suffix_cons _ _), behind, read⟩

/-- A chain that is rendered is scanned back, without a warning. -/
theorem passes_render (finish : Location) (chain : Token.Chain previous ts)
    (bytes : bytesOf gs = Token.renderAfter previous ts) (unbroken : Unbroken gs) :
    ∃ us, Passes finish previous gs us [] .newline [] ∧
      us.map Token.lexeme = ts.map Token.lexeme := by
  -- A name that is read takes the blanks behind it along, which the next token would have skipped.
  induction chain generalizing gs with
  | @last previous t spelled ends =>
    obtain ⟨l, rest, _, behind, read⟩ :=
      readToken_written finish spelled (.inl ends) bytes unbroken
    obtain rfl := List.map_eq_nil_iff.mp behind
    have read : readToken finish previous.producesValue gs = ⟨.ok { t with location := l }, [], []⟩ :=
      read.elim id id
    have line : Passes finish previous gs [{ t with location := l }] [] .newline [] := by
      rw [← ends]
      exact .more read (by simp [ends]) .done
    exact ⟨_, line, rfl⟩
  | @more previous t u ts spelled called later ih =>
    obtain ⟨l, rest, suffix, behind, read⟩ :=
      readToken_written finish spelled (later.follows called) bytes unbroken
    obtain ⟨us, passes, same⟩ := ih behind (unbroken.suffix suffix)
    have nonempty : us ≠ [] := by
      rintro rfl
      contradiction
    refine ⟨{ t with location := l } :: us, ?_, ?_⟩
    · rcases read with read | read
      · exact .more read spelled.not_end passes
      · exact .more read spelled.not_end (passes.skipBlanks nonempty)
    · rw [List.map_cons, List.map_cons, same]
      rfl

end Scanner

end AwkCore
