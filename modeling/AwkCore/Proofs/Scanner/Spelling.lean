import Mathlib.Data.List.TakeWhile
import AwkCore.Proofs.Scanner.Cuts

/-!
# How tokens are spelled

`Spelled` says which tokens there are: for each kind the texts that it can have, and the value of a
number. Every token that is read is spelled, and a scan reads no other.
-/
namespace AwkCore

open Scanner

/-- A letter or an underscore, and then letters, underscores and digits. -/
def Bytes.IsWord (w : Bytes) : Prop :=
  (∃ b, w.head? = some b ∧ Byte.isNameStart b = true) ∧ ∀ b ∈ w, Byte.isNamePart b = true

namespace Numeral

/-- The stage in which the first byte leaves a numeral. -/
def Stage.start (b : Byte) : Stage := if b = 0x2e then .fraction else .whole

/-- Whether some bytes can all belong to a numeral that has come to a stage. -/
def Stage.takes : Stage → Bytes → Bool
  | _, [] => true
  | stage, b :: bs =>
    match stage.next? b with
    | some stage => stage.takes bs
    | none => false

end Numeral

/-- The spellings of operators: each has its own, and a power and its assignment have one with stars. -/
inductive Operator.Spelled : Operator → Bytes → Prop
  | own {o : Operator} : Spelled o (ascii o.spelling)
  | stars : Spelled .power (ascii "**")
  | starsAssign : Spelled .powerAssign (ascii "**=")

/-- How an operator is found: as a single byte, as a pair of bytes, or by its stars. -/
inductive Operator.Found : Operator → Bytes → Prop
  | single {o : Operator} {b : Byte} (found : Vocabulary.single? b = some o) : Found o [b]
  | pair {o : Operator} {a b : Byte} (found : Vocabulary.pair? a b = some o) : Found o [a, b]
  | stars : Found .power [0x2a, 0x2a]
  | starsAssign : Found .powerAssign [0x2a, 0x2a, 0x3d]

namespace Vocabulary

theorem entry_of_find? {α β : Type} {table : List (α × β)} {p : α × β → Bool} {b : β}
    (found : (table.find? p).map Prod.snd = some b) : ∃ a, (a, b) ∈ table ∧ p (a, b) = true := by
  obtain ⟨entry, at_entry, rfl⟩ := Option.map_eq_some_iff.mp found
  exact ⟨entry.1, List.mem_of_find?_eq_some at_entry, List.find?_some at_entry⟩

theorem singles_spelling : ∀ entry ∈ singles, ascii entry.2.spelling = [entry.1.toUInt8] := by
  decide

theorem pairs_spelling : ∀ entry ∈ pairs,
    ascii entry.2.spelling = [entry.1.1.toUInt8, entry.1.2.toUInt8] := by
  decide

theorem single?_eq_some {b : Byte} {o : Operator} (found : single? b = some o) :
    ascii o.spelling = [b] := by
  obtain ⟨first, mem, byte⟩ := entry_of_find? found
  rw [singles_spelling _ mem, of_decide_eq_true byte]

theorem pair?_eq_some {a b : Byte} {o : Operator} (found : pair? a b = some o) :
    ascii o.spelling = [a, b] := by
  obtain ⟨⟨first, second⟩, mem, bytes⟩ := entry_of_find? found
  obtain ⟨at_first, at_second⟩ := of_decide_eq_true bytes
  rw [pairs_spelling _ mem, at_first, at_second]

/-- No operator of two bytes ends in a blank or in a line feed. -/
theorem pair?_none {b : Byte} (blank : b = 0x20 ∨ b = Byte.newline) (a : Byte) :
    pair? a b = none := by
  have others (o : Operator) : (ascii o.spelling)[1]? ≠ some 0x20 ∧
      (ascii o.spelling)[1]? ≠ some Byte.newline := by
    cases o <;> decide
  cases found : pair? a b with
  | none => rfl
  | some o =>
    obtain ⟨space, newline⟩ := others o
    rw [pair?_eq_some found] at space newline
    rcases blank with rfl | rfl <;> contradiction

end Vocabulary

namespace Operator

theorem found_spelling (o : Operator) : o.Found (ascii o.spelling) := by
  cases o <;> first | exact .single rfl | exact .pair rfl

/-- The tables and the spellings agree: an operator is found in just those bytes that spell it. -/
theorem spelled_iff_found {o : Operator} {w : Bytes} : o.Spelled w ↔ o.Found w := by
  constructor
  · intro spelled
    cases spelled with
    | own => exact o.found_spelling
    | stars => exact .stars
    | starsAssign => exact .starsAssign
  · intro found
    cases found with
    | single found => exact Vocabulary.single?_eq_some found ▸ .own
    | pair found => exact Vocabulary.pair?_eq_some found ▸ .own
    | stars => exact .stars
    | starsAssign => exact .starsAssign

theorem Spelled.found {o : Operator} {w : Bytes} (spelled : o.Spelled w) : o.Found w :=
  spelled_iff_found.mp spelled

theorem Found.spelled {o : Operator} {w : Bytes} (found : o.Found w) : o.Spelled w :=
  spelled_iff_found.mpr found

end Operator

/-- The tokens that can be read, but for the end of input: in a place where a slash divides, or where
it opens a regular expression. -/
inductive Token.Spelled (divides : Bool) : Token → Prop
  | newline {l : Location} : Spelled divides ⟨.newline, [Byte.newline], Binary64.zero, l⟩
  | keyword {k : Keyword} {w : Bytes} {l : Location} (word : w.IsWord)
      (found : Vocabulary.keyword? w = some k) : Spelled divides ⟨.keyword k, w, Binary64.zero, l⟩
  | builtin {b : Builtin} {w : Bytes} {l : Location} (word : w.IsWord)
      (not_keyword : Vocabulary.keyword? w = none) (found : Vocabulary.builtin? w = some b) :
    Spelled divides ⟨.builtin b, w, Binary64.zero, l⟩
  | function {w : Bytes} {l : Location} (word : w.IsWord)
      (not_keyword : Vocabulary.keyword? w = none) (not_builtin : Vocabulary.builtin? w = none) :
    Spelled divides ⟨.function, w, Binary64.zero, l⟩
  | name {w : Bytes} {l : Location} (word : w.IsWord)
      (not_keyword : Vocabulary.keyword? w = none) (not_builtin : Vocabulary.builtin? w = none) :
    Spelled divides ⟨.name, w, Binary64.zero, l⟩
  | string {text : Bytes} {l : Location} : Spelled divides ⟨.string, text, Binary64.zero, l⟩
  | regex {text : Bytes} {l : Location} (opens : divides = false) :
    Spelled divides ⟨.regex, text, Binary64.zero, l⟩
  | number {b : Byte} {w : Bytes} {n : Numeral} {l : Location}
      (start : Byte.isDigit b = true ∨ b = 0x2e) (row : (Numeral.Stage.start b).takes w = true)
      (read : Numeral.read? (b :: w) = some n) (whole : n.length = w.length + 1) :
    Spelled divides ⟨.number, b :: w, n.number, l⟩
  | operator {o : Operator} {w : Bytes} {l : Location} (spelled : o.Spelled w)
      (slash : w.head? = some Delimiter.slash.byte → divides = true) :
    Spelled divides ⟨.operator o, w, Binary64.zero, l⟩

theorem Token.Spelled.not_end {divides : Bool} {t : Token} (h : t.Spelled divides) :
    t.kind ≠ .endOfInput := by
  cases h <;> simp

namespace Numeral

theorem Stage.next?_none {b : Byte} (blank : b = 0x20 ∨ b = Byte.newline) (stage : Stage) :
    stage.next? b = none := by
  rcases blank with rfl | rfl <;> cases stage <;> rfl

theorem Stage.takes_take {stage : Stage} {w : Bytes} (h : stage.takes w = true) (k : ℕ) :
    stage.takes (w.take k) = true := by
  induction w generalizing stage k with
  | nil => simpa using h
  | cons b w ih =>
    cases k with
    | zero => rfl
    | succ k =>
      rw [takes] at h
      rw [List.take_succ_cons, takes]
      cases next : stage.next? b with
      | none => simp [next] at h
      | some stage' =>
        simp only [next] at h
        exact ih h k

end Numeral

namespace Scanner

variable {divides : Bool} {finish l : Location} {g : Glyph} {gs : List Glyph} {t : Token}

theorem skipSpacing_blank (blank : Byte.isBlank g.byte = true) (gs : List Glyph) :
    skipSpacing (g :: gs) = skipSpacing gs := by
  cases gs <;> simp [skipSpacing, blank]

theorem skipSpacing_continued {h : Glyph} (slash : g.byte = Byte.backslash)
    (newline : h.byte = Byte.newline) (gs : List Glyph) :
    skipSpacing (g :: h :: gs) = skipSpacing gs := by
  have solid : ¬ Byte.isBlank Byte.backslash = true := by decide
  rw [skipSpacing, slash, if_neg solid, if_pos rfl, if_pos newline]

theorem skipSpacing_here (solid : ¬ Byte.isBlank g.byte = true) (other : g.byte ≠ Byte.backslash)
    (gs : List Glyph) : skipSpacing (g :: gs) = .token (g :: gs) := by
  cases gs <;> simp [skipSpacing, solid, other]

theorem takes_numberTail (stage : Numeral.Stage) (gs : List Glyph) :
    stage.takes (numberTail stage gs) = true := by
  fun_induction numberTail stage gs with
  | case1 => rfl
  | case2 stage g gs joined next stage' ih => simpa [Numeral.Stage.takes, stage'] using ih
  | case3 => rfl
  | case4 => rfl

theorem readNumber_ok (ok : (readNumber l g gs).outcome = .ok t) :
    ∃ w n, t = ⟨.number, g.byte :: w, n.number, l⟩ ∧
      (Numeral.Stage.start g.byte).takes w = true ∧ Numeral.read? (g.byte :: w) = some n ∧
        n.length = w.length + 1 := by
  cases read : Numeral.read? (numberWindow g gs) with
  | none =>
    rw [readNumber_none read] at ok
    cases ok
  | some n =>
    rw [readNumber_some read] at ok
    have window := Numeral.read?_length_le read
    have pos := numeral_length_pos read
    obtain ⟨k, length⟩ : ∃ k, n.length = k + 1 := ⟨n.length - 1, by omega⟩
    have text : (numberWindow g gs).take n.length =
        g.byte :: (numberTail (.start g.byte) gs).take k := by
      rw [length, numberWindow, List.take_succ_cons]
      rfl
    have tail : k ≤ (numberTail (.start g.byte) gs).length := by
      rw [length, numberWindow, List.length_cons] at window
      exact Nat.le_of_succ_le_succ window
    have same := Numeral.read?_take read (Nat.le_refl n.length)
    rw [text] at same ok
    refine ⟨_, n, (Except.ok.inj ok).symm, ?_, same, ?_⟩
    · exact Numeral.Stage.takes_take (takes_numberTail _ _) k
    · rw [length, List.length_take, Nat.min_eq_left tail]

theorem readQuoted_ok {d : Delimiter} {kind : Kind} (ok : (readQuoted d kind l gs).outcome = .ok t) :
    ∃ text, t = ⟨kind, text, Binary64.zero, l⟩ := by
  simp only [readQuoted] at ok
  split at ok
  · exact ⟨_, (Except.ok.inj ok).symm⟩
  · cases ok
  · cases ok

theorem bytesOf_takeWhile (p : Byte → Bool) (gs : List Glyph) :
    bytesOf (gs.takeWhile fun g => p g.byte) = (bytesOf gs).takeWhile p :=
  List.takeWhile_map.symm

theorem isWord_takeWhile (gs : List Glyph) (start : Byte.isNameStart g.byte = true) :
    (bytesOf ((g :: gs).takeWhile fun g => Byte.isNamePart g.byte)).IsWord := by
  have part : Byte.isNamePart g.byte = true := by simp [Byte.isNamePart, start]
  rw [bytesOf_takeWhile]
  constructor
  · exact ⟨g.byte, by simp [bytesOf, part], start⟩
  · exact fun b mem => List.mem_takeWhile_imp mem

theorem readWord_spelled (start : Byte.isNameStart g.byte = true)
    (ok : (readWord l (g :: gs)).outcome = .ok t) : t.Spelled divides ∧ (t.kind = .function →
      (readWord l (g :: gs)).rest.head?.map Glyph.byte = some 0x28) := by
  have word := isWord_takeWhile gs start
  unfold readWord at ok ⊢
  dsimp only at ok ⊢
  split at ok
  · rename_i k found
    cases ok
    exact ⟨.keyword word found, by simp⟩
  · rename_i not_keyword
    split at ok
    · rename_i b found
      cases ok
      exact ⟨.builtin word not_keyword found, by simp⟩
    · rename_i not_builtin
      split at ok
      · rename_i called
        cases ok
        refine ⟨.function word not_keyword not_builtin, fun _ => ?_⟩
        rw [if_pos called]
        exact called
      · cases ok
        exact ⟨.name word not_keyword not_builtin, by simp⟩

/-- Before a blank or a line feed an operator is a single byte. -/
theorem readOperator_single {h : Glyph} (blank : h.byte = 0x20 ∨ h.byte = Byte.newline)
    (g : Glyph) (gs : List Glyph) : readOperator l g (h :: gs) =
      match Vocabulary.single? g.byte with
      | some o => .plain (.operator o) [g.byte] l (h :: gs)
      | none => unexpected l g.byte (h :: gs) := by
  have star : ¬ (g.byte = 0x2a ∧ h.byte = 0x2a) := by
    rintro ⟨_, star⟩
    rw [star] at blank
    revert blank
    decide
  cases found : Vocabulary.single? g.byte with
  | none => simp [readOperator, bytesOf, star, Vocabulary.pair?_none blank, found]
  | some o => simp [readOperator, bytesOf, star, Vocabulary.pair?_none blank, found]

theorem readOperator_ok (ok : (readOperator l g gs).outcome = .ok t) :
    ∃ o w, t = ⟨.operator o, g.byte :: w, Binary64.zero, l⟩ ∧ o.Spelled (g.byte :: w) := by
  have single (ok : (match Vocabulary.single? g.byte with
      | some o => Step.plain (.operator o) [g.byte] l gs
      | none => unexpected l g.byte gs).outcome = .ok t) :
      ∃ o w, t = ⟨.operator o, g.byte :: w, Binary64.zero, l⟩ ∧ o.Spelled (g.byte :: w) := by
    split at ok
    · rename_i o found
      exact ⟨o, [], (Except.ok.inj ok).symm, Operator.Found.spelled (.single found)⟩
    · cases ok
  unfold readOperator at ok
  dsimp only at ok
  split at ok
  · split at ok
    · rename_i stars
      rw [stars.1]
      split at ok
      · exact ⟨_, _, (Except.ok.inj ok).symm, .starsAssign⟩
      · exact ⟨_, _, (Except.ok.inj ok).symm, .stars⟩
    · split at ok
      · rename_i o found
        exact ⟨o, _, (Except.ok.inj ok).symm, Operator.Found.spelled (.pair found)⟩
      · exact single ok
  · exact single ok

/-- What is read is spelled, and a function has its arguments right behind it. -/
theorem readLexeme_spelled (ok : (readLexeme divides l (g :: gs)).outcome = .ok t) :
    t.Spelled divides ∧ (t.kind = .function →
      (readLexeme divides l (g :: gs)).rest.head?.map Glyph.byte = some 0x28) := by
  rw [readLexeme] at ok ⊢
  split at ok
  · cases ok
    exact ⟨.newline, by simp⟩
  split at ok
  · rename_i other start
    rw [if_neg other, if_pos start]
    exact readWord_spelled start ok
  split at ok
  · obtain ⟨text, rfl⟩ := readQuoted_ok ok
    exact ⟨.string, by simp⟩
  split at ok
  · rename_i start
    obtain ⟨w, n, rfl, row, read, whole⟩ := readNumber_ok ok
    exact ⟨.number (by simpa using start) row read whole, by simp⟩
  split at ok
  · rename_i opens
    obtain ⟨text, rfl⟩ := readQuoted_ok ok
    exact ⟨.regex (by simpa using opens.2), by simp⟩
  split at ok
  · cases ok
  · rename_i divide _
    obtain ⟨o, w, rfl, spelled⟩ := readOperator_ok ok
    refine ⟨.operator spelled fun slash => ?_, by simp⟩
    have is_slash : g.byte = Delimiter.slash.byte := Option.some.inj slash
    simpa [is_slash] using divide

/-- A token that is read is the end of input or spelled. -/
theorem readToken_spelled (ok : (readToken finish divides gs).outcome = .ok t) :
    (∃ l, readToken finish divides gs = .plain .endOfInput [] l []) ∨
      (t.Spelled divides ∧ (t.kind = .function →
        (readToken finish divides gs).rest.head?.map Glyph.byte = some 0x28)) := by
  obtain ⟨l, after, _, eq⟩ := readToken_behind ok
  rw [eq] at ok ⊢
  cases after with
  | nil => exact .inl ⟨l, rfl⟩
  | cons g after => exact .inr (readLexeme_spelled ok)

end Scanner

end AwkCore
