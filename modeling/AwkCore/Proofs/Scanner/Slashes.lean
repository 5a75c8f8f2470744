import AwkCore.Proofs.Scanner.Starts
import AwkCore.Proofs.Scanner.Written

/-!
# Slashes

A slash divides right after a token that ends an operand, and opens a regular expression after any
other. What stands between the two tokens does not matter. Over a whole scan this holds of every two
calls in a row, the first of which has the start of the program before it.
-/
namespace AwkCore

namespace Kind

/-- The kinds of token that can end an operand. -/
def operands : List Kind :=
  [.number, .string, .name, .keyword .getline, .operator .rightParen, .operator .rightBracket,
    .operator .increment, .operator .decrement]

def divisions : List Kind := [.operator .divide, .operator .divideAssign]

/-- The kinds of token that start with a slash. -/
def slashes : List Kind := .regex :: divisions

@[simp] theorem mem_divisions {k : Kind} :
    k ∈ divisions ↔ k = .operator .divide ∨ k = .operator .divideAssign := by
  simp [divisions]

@[simp] theorem mem_slashes {k : Kind} : k ∈ slashes ↔ k = .regex ∨ k ∈ divisions := List.mem_cons

theorem producesValue_iff {k : Kind} : k.producesValue = true ↔ k ∈ operands := by
  cases k with
  | builtin b => simp [producesValue, operands]
  | operator o => cases o <;> decide
  | keyword k => cases k <;> decide
  | _ => decide

end Kind

/-- The divisions are the operators that start with a slash. -/
theorem Operator.Spelled.division_iff {o : Operator} {w : Bytes} (spelled : o.Spelled w) :
    Kind.operator o ∈ Kind.divisions ↔ w.head? = some Scanner.Delimiter.slash.byte := by
  cases spelled with
  | own => cases o <;> decide
  | stars => decide
  | starsAssign => decide

namespace Scanner

variable {divides : Bool} {finish l : Location} {g : Glyph} {gs gap tail : List Glyph} {t : Token}

theorem skipSpacing_gap (is_gap : (bytesOf gap).IsGap) (gs : List Glyph) :
    skipSpacing (gap ++ gs) = skipSpacing gs := by
  generalize bytes : bytesOf gap = bs at is_gap
  induction is_gap generalizing gap with
  | nil =>
    obtain rfl := List.map_eq_nil_iff.mp bytes
    rfl
  | blank is _ ih =>
    obtain ⟨b, gap, rfl, rfl, behind⟩ := bytesOf_eq_cons bytes
    rw [List.cons_append, skipSpacing_blank is, ih behind]
  | continued _ ih =>
    obtain ⟨b, gap, rfl, slash, behind⟩ := bytesOf_eq_cons bytes
    obtain ⟨c, gap, rfl, newline, behind⟩ := bytesOf_eq_cons behind
    rw [List.cons_append, List.cons_append, skipSpacing_continued slash newline, ih behind]

/-- A token is read where its lexeme starts, whatever gap comes before. -/
theorem Starts.readToken (starts : Starts gs g tail) (other : g.byte ≠ Byte.backslash) :
    readToken finish divides gs = readLexeme divides g.location (skipComment (g :: tail)) := by
  obtain ⟨gap, rfl, is_gap⟩ := starts.behind
  have solid : ¬ Byte.isBlank g.byte = true := by
    simp [starts.no_gap.not_blank g.byte rfl]
  have spacing : skipSpacing (gap ++ g :: tail) = .token (g :: tail) := by
    rw [skipSpacing_gap is_gap, skipSpacing_here solid other]
  exact readToken_eq spacing

theorem readWord_kind (ok : (readWord l gs).outcome = .ok t) : t.kind ∉ Kind.slashes := by
  unfold readWord at ok
  dsimp only at ok
  split at ok
  · cases ok
    simp
  split at ok
  · cases ok
    simp
  split at ok
  · cases ok
    simp
  · cases ok
    simp

/-- A lexeme that does not start with a slash is neither a division nor a regular expression. -/
theorem readLexeme_other (other : ∀ g ∈ gs.head?, g.byte ≠ Delimiter.slash.byte)
    (ok : (readLexeme divides l gs).outcome = .ok t) : t.kind ∉ Kind.slashes := by
  cases gs with
  | nil =>
    cases ok
    simp
  | cons g gs =>
    have other := other g rfl
    rw [readLexeme] at ok
    split_ifs at ok with newline word quote number slash null
    · cases ok
      simp
    · exact readWord_kind ok
    · obtain ⟨text, rfl⟩ := readQuoted_ok ok
      simp
    · obtain ⟨w, n, rfl, _⟩ := readNumber_ok ok
      simp
    · exact absurd slash.1 other
    · cases ok
    · obtain ⟨o, w, rfl, spelled⟩ := readOperator_ok ok
      intro mem
      have division := (Kind.mem_slashes.mp mem).resolve_left (by simp)
      exact other (Option.some.inj (spelled.division_iff.mp division))

/-- A lexeme that starts with a slash is a division where a slash divides, and else a regular
expression. -/
theorem readLexeme_at_slash (slash : g.byte = Delimiter.slash.byte)
    (ok : (readLexeme divides l (g :: gs)).outcome = .ok t) :
    (t.kind ∈ Kind.divisions ↔ divides = true) ∧ (t.kind = .regex ↔ divides = false) := by
  cases divides with
  | false =>
    rw [readLexeme_slash slash rfl] at ok
    obtain ⟨text, rfl⟩ := readQuoted_ok ok
    simp
  | true =>
    have start : Vocabulary.StartsOperator g.byte := by
      rw [slash]
      decide
    rw [readLexeme_operator start fun _ => rfl] at ok
    obtain ⟨o, w, rfl, spelled⟩ := readOperator_ok ok
    rw [slash] at spelled
    exact ⟨iff_of_true (spelled.division_iff.mpr rfl) rfl, by simp⟩

/-- The lexeme behind the gap at the front starts with a slash. -/
def SlashAhead (gs : List Glyph) : Prop := ∃ g tail, Starts gs g tail ∧ g.byte = Delimiter.slash.byte

/-- The kind of a token tells whether its lexeme starts with a slash. -/
theorem readToken_slash (ok : (readToken finish divides gs).outcome = .ok t) :
    (t.kind ∈ Kind.divisions ↔ divides = true ∧ SlashAhead gs) ∧
      (t.kind = .regex ↔ divides = false ∧ SlashAhead gs) := by
  by_cases slash : SlashAhead gs
  · obtain ⟨g, tail, starts, at_slash⟩ := id slash
    have others : g.byte ≠ Byte.backslash ∧ g.byte ≠ 0x23 := by
      rw [at_slash]
      decide
    rw [starts.readToken others.1, skipComment, if_neg others.2] at ok
    simpa only [slash, and_true] using readLexeme_at_slash at_slash ok
  · have other : t.kind ∉ Kind.slashes := by
      cases spacing : skipSpacing gs with
      | strayBackslash l rest =>
        rw [readToken, spacing] at ok
        cases ok
      | token rest =>
        rw [readToken_eq spacing] at ok
        refine readLexeme_other (fun h head at_slash => ?_) ok
        cases rest with
        | nil => cases head
        | cons g tail =>
          -- A comment leads to the end of its line, which is no slash.
          rcases skipComment_or g tail with same | newline
          · rw [same] at head
            obtain rfl := Option.some.inj head
            exact slash ⟨g, tail, starts_of_token spacing, at_slash⟩
          · rw [newline h head] at at_slash
            revert at_slash
            decide
    rw [Kind.mem_slashes, not_or] at other
    simp only [other, slash, and_false, and_self]

/-- A call leads from one scanner to another one, which knows the kind of the token before its own. A
slash is told by that kind: it divides exactly behind an operand. -/
structure TellsSlash (s t : Scanner) : Prop where
  previous : t.previous = s.current.kind
  division : t.current.kind ∈ Kind.divisions ↔
    s.current.kind ∈ Kind.operands ∧ SlashAhead s.stream.glyphs
  regex : t.current.kind = .regex ↔ s.current.kind ∉ Kind.operands ∧ SlashAhead s.stream.glyphs

variable {s t : Scanner}

theorem next_previous (ok : s.next.outcome = .ok t) : t.previous = s.current.kind := by
  unfold next at ok
  split at ok
  · cases ok
  · dsimp only at ok
    split at ok
    · cases ok
    · generalize (readToken _ _ _).outcome = outcome at ok
      cases outcome with
      | error failure => cases ok
      | ok token =>
        cases ok
        rfl

theorem next_tellsSlash (ok : s.next.outcome = .ok t) : s.TellsSlash t := by
  obtain ⟨token, _, _⟩ := of_next_ok ok
  obtain ⟨division, regex⟩ := readToken_slash token
  constructor
  case previous => exact next_previous ok
  case division => rw [division, Kind.producesValue_iff]
  case regex => rw [regex, ← Bool.not_eq_true, Kind.producesValue_iff]

/-- The scanners behind the calls of a scan, as many as a number allows, up to the first call that
fails. -/
def calls : ℕ → Scanner → List Scanner
  | 0, _ => []
  | n + 1, s =>
    match s.next.outcome with
    | .ok t => t :: calls n t
    | .error _ => []

theorem calls_isChain {R : Scanner → Scanner → Prop} (step : ∀ s t, s.next.outcome = .ok t → R s t)
    (n : ℕ) (s : Scanner) : (s :: s.calls n).IsChain R := by
  induction n generalizing s with
  | zero => exact .singleton s
  | succ n ih =>
    rw [calls]
    split
    · rename_i t ok
      exact .cons_cons (step s t ok) (ih t)
    · exact .singleton s

/-- Over all calls of a scan, as many as there may be: a scanner knows the kind of the token before, and a
slash divides exactly behind an operand and opens a regular expression behind anything else, as it does at
the start of the program. -/
theorem calls_slashes (p : Program) (n : ℕ) :
    (ofProgram p).current.kind ∉ Kind.operands ∧
      (ofProgram p :: (ofProgram p).calls n).IsChain TellsSlash := by
  have start : Kind.endOfInput ∉ Kind.operands := by decide
  exact ⟨start, calls_isChain (fun _ _ ok => next_tellsSlash ok) n _⟩

example : ((ofProgram (Program.inline (ascii "x /y/ /z/"))).calls 6).map (·.current.kind) =
    [.name, .operator .divide, .name, .operator .divide, .regex, .newline] := by decide

end Scanner

end AwkCore
