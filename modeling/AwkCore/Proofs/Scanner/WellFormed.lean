import AwkCore.Proofs.Scanner.Reads
import AwkCore.Proofs.Scanner.Rendered

/-!
# Well-formed tokens

The kind of a token, its text and its value agree. Fixed tokens have their spellings, words are told
apart from keywords and built-in functions, and only numbers have values. This holds for every call of
every scanner, so it holds for all tokens of all programs.
-/
namespace AwkCore

/-- The spellings of a fixed kind: its own one, and with stars those of a power. -/
def Kind.spellings (k : Kind) : List Bytes :=
  if k = .operator .power then [ascii k.text, ascii "**"]
  else if k = .operator .powerAssign then [ascii k.text, ascii "**="]
  else [ascii k.text]

/-- A word that neither a keyword nor a built-in function has for a name. -/
structure Bytes.IsFreeWord (w : Bytes) : Prop where
  word : w.IsWord
  not_keyword (k : Keyword) : w ≠ ascii k.name
  not_builtin (b : Builtin) : w ≠ ascii b.name

structure Token.WellFormed (t : Token) : Prop where
  fixed : t.kind.tokenClass ∈ [.keyword, .builtin, .operator] → t.text ∈ t.kind.spellings
  word : t.kind.tokenClass ∈ [.name, .function] → t.text.IsFreeWord
  newline : t.kind = .newline → t.text = [Byte.newline]
  ending : t.kind = .endOfInput → t.text = []
  value : t.kind ≠ .number → t.value = Binary64.zero

namespace Vocabulary

variable {w : Bytes}

/-- The table of keywords and their names agree: a word is found just as the keyword it names. -/
theorem keyword?_eq_some {k : Keyword} : keyword? w = some k ↔ w = ascii k.name := by
  constructor
  · intro found
    have names : ∀ entry ∈ keywords, entry.1 = entry.2.name := by decide
    obtain ⟨name, mem, word⟩ := entry_of_find? found
    rw [← of_decide_eq_true word, names _ mem]
  · rintro rfl
    cases k <;> rfl

/-- The table of built-in functions and their names agree. -/
theorem builtin?_eq_some {b : Builtin} : builtin? w = some b ↔ w = ascii b.name := by
  constructor
  · intro found
    have names : ∀ entry ∈ builtins, entry.1 = entry.2.name := by decide
    obtain ⟨name, mem, word⟩ := entry_of_find? found
    rw [← of_decide_eq_true word, names _ mem]
  · rintro rfl
    cases b <;> rfl

theorem isFreeWord (word : w.IsWord) (no_keyword : keyword? w = none)
    (no_builtin : builtin? w = none) : w.IsFreeWord := by
  constructor
  case word => exact word
  case not_keyword =>
    intro k named
    cases no_keyword.symm.trans (keyword?_eq_some.mpr named)
  case not_builtin =>
    intro b named
    cases no_builtin.symm.trans (builtin?_eq_some.mpr named)

end Vocabulary

theorem Operator.Spelled.mem_spellings {o : Operator} {w : Bytes} (spelled : o.Spelled w) :
    w ∈ (Kind.operator o).spellings := by
  cases spelled with
  | own =>
    unfold Kind.spellings
    split
    · exact List.mem_cons_self
    split
    · exact List.mem_cons_self
    · exact List.mem_cons_self
  | stars => decide
  | starsAssign => decide

namespace Token

variable {divides : Bool} {t : Token}

theorem Spelled.wellFormed (spelled : t.Spelled divides) : t.WellFormed := by
  constructor
  case fixed =>
    intro fixed
    cases spelled with
    | keyword _ found => simp [Kind.spellings, Vocabulary.keyword?_eq_some.mp found, Kind.text]
    | builtin _ _ found => simp [Kind.spellings, Vocabulary.builtin?_eq_some.mp found, Kind.text]
    | operator spelled => exact spelled.mem_spellings
    | _ => simp [Kind.tokenClass] at fixed
  case word =>
    intro word
    cases spelled with
    | function is_word no_keyword no_builtin =>
      exact Vocabulary.isFreeWord is_word no_keyword no_builtin
    | name is_word no_keyword no_builtin =>
      exact Vocabulary.isFreeWord is_word no_keyword no_builtin
    | _ => simp [Kind.tokenClass] at word
  case newline =>
    intro newline
    cases spelled with
    | newline => rfl
    | _ => contradiction
  case ending => exact fun ending => absurd ending spelled.not_end
  case value =>
    intro other
    cases spelled with
    | number => contradiction
    | _ => rfl

theorem wellFormed_ending (l : Location) : (ending l).WellFormed := by
  constructor <;> simp [ending, Kind.tokenClass]

end Token

namespace Scanner

variable {s t : Scanner}

theorem next_spelled (ok : s.next.outcome = .ok t) :
    (∃ l, t.current = .ending l) ∨ (t.current.Spelled s.current.kind.producesValue ∧
      (t.current.kind = .function → t.stream.glyphs.head?.map Glyph.byte = some 0x28)) := by
  obtain ⟨token, stream, _⟩ := of_next_ok ok
  rw [stream]
  rcases readToken_spelled token with ⟨l, at_end⟩ | spelled
  · rw [step, at_end] at token
    exact .inl ⟨l, (Except.ok.inj token).symm⟩
  · exact .inr spelled

/-- The token of a call is well formed, and a call after one that gave a function gives the parenthesis
of its arguments, if it gives a token. -/
theorem next_wellFormed (ok : s.next.outcome = .ok t) : t.current.WellFormed ∧
    (t.current.kind = .function → ∀ u, t.next.outcome = .ok u →
      u.current.kind = .operator .leftParen) := by
  rcases next_spelled ok with ⟨l, at_end⟩ | ⟨spelled, called⟩
  · rw [at_end]
    exact ⟨Token.wellFormed_ending l, fun function => nomatch function⟩
  · refine ⟨spelled.wellFormed, fun function u next => ?_⟩
    exact readToken_parenthesis (called function) (of_next_ok next).1

theorem next_wellFormed_call :
    let s := ofProgram (Program.inline (ascii "f(x)"))
    ∃ t u, s.next.outcome = .ok t ∧ t.current.kind = .function ∧ t.next.outcome = .ok u ∧
      t.current.WellFormed ∧ u.current.kind = .operator .leftParen := by
  intro s
  obtain ⟨t, u, ok, function, next⟩ : ∃ t u, s.next.outcome = .ok t ∧
      t.current.kind = .function ∧ t.next.outcome = .ok u := ⟨_, _, rfl, rfl, rfl⟩
  obtain ⟨wellFormed, called⟩ := next_wellFormed ok
  exact ⟨t, u, ok, function, next, wellFormed, called function u next⟩

end Scanner

end AwkCore
