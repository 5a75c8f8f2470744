import Mathlib.Data.List.Chain
import AwkCore.Proofs.Scanner.Spelling
import AwkCore.Token.Quoting
import AwkCore.Token.Rendering

/-!
# Written tokens are read back

A spelled token that is written out, with a blank or the end of a line behind it, is read back from
the front of what is written. Reading it uses all of it and gives no warning.
-/
namespace AwkCore

namespace Byte

theorem hexValue?_hexDigitIn : ∀ n < 16, ∀ capital, hexValue? (hexDigitIn capital n) = some n := by
  decide

theorem hexValue?_hexDigit (n : ℕ) (digit : n < 16) : hexValue? (hexDigit n) = some n :=
  hexValue?_hexDigitIn n digit false

theorem escaped_eq (b : Byte) : b.escaped = b.escapedIn false false := rfl

theorem isDigit_iff {b : Byte} : isDigit b = true ↔ 0x30 ≤ b.toNat ∧ b.toNat ≤ 0x39 := by
  simp [isDigit, UInt8.le_iff_toNat_le]

theorem not_isNameStart_of_isDigit {b : Byte} (h : isDigit b = true) : isNameStart b = false := by
  have between := isDigit_iff.mp h
  simp only [isNameStart, isLetter, isUpper, isLower, UInt8.le_iff_toNat_le, Bool.or_eq_false_iff,
    Bool.and_eq_false_imp, decide_eq_true_eq, decide_eq_false_iff_not, beq_eq_false_iff_ne]
  refine ⟨⟨?_, ?_⟩, ?_⟩
  · intro low
    simp at low
    omega
  · intro low
    simp at low
    omega
  · rintro rfl
    simp at between

end Byte

namespace Vocabulary

/-- A byte with which an operator can start: none that starts a token of another kind, or that is
skipped before a token. -/
def StartsOperator (b : Byte) : Prop :=
  b ≠ Byte.newline ∧ Byte.isNameStart b = false ∧ b ≠ Scanner.Delimiter.quote.byte ∧
    Byte.isDigit b = false ∧ b ≠ 0x2e ∧ b ≠ 0 ∧ Byte.isBlank b = false ∧ b ≠ Byte.backslash ∧ b ≠ 0x23

instance (b : Byte) : Decidable (StartsOperator b) := inferInstanceAs (Decidable (_ ∧ _))

end Vocabulary

theorem Operator.Spelled.starts {o : Operator} {w : Bytes} (h : o.Spelled w) :
    ∃ b bs, w = b :: bs ∧ Vocabulary.StartsOperator b := by
  cases h with
  | own => cases o <;> exact ⟨_, _, rfl, by decide⟩
  | stars => exact ⟨_, _, rfl, by decide⟩
  | starsAssign => exact ⟨_, _, rfl, by decide⟩

namespace Scanner

variable {divides : Bool} {l : Location} {g : Glyph} {gs : List Glyph} {t : Token} {w more : Bytes}

/-- Each glyph is joined to the one before it, unless that ends a line. -/
def Unbroken (gs : List Glyph) : Prop :=
  gs.IsChain fun g h => g.byte ≠ Byte.newline → h.joined = true

/-- What stands behind a written token: the arguments behind a function, anything behind the end of a
line, and a blank or the end of a line behind any other token. -/
def Follows (kind : Kind) (more : Bytes) : Prop :=
  kind = .newline ∨ ∃ b, more.head? = some b ∧
    if kind = .function then b = 0x28 else b = 0x20 ∨ b = Byte.newline

/-- A step that reads a token back from some glyphs and leaves those of a text, perhaps without the
blanks at its front. -/
def Step.ReadsBack (a : Step) (t : Token) (gs : List Glyph) (more : Bytes) : Prop :=
  ∃ l rest, rest <:+ gs ∧ bytesOf rest = more ∧
    (a = ⟨.ok { t with location := l }, [], rest⟩ ∨
      a = ⟨.ok { t with location := l }, [], skipBlanks rest⟩)

section Dispatch

theorem readLexeme_word (start : Byte.isNameStart g.byte = true) :
    readLexeme divides l (g :: gs) = readWord l (g :: gs) := by
  have other : g.byte ≠ Byte.newline := fun newline => by
    rw [newline] at start
    contradiction
  rw [readLexeme, if_neg other, if_pos start]

theorem readLexeme_number (start : Byte.isDigit g.byte = true ∨ g.byte = 0x2e) :
    readLexeme divides l (g :: gs) = readNumber l g gs := by
  have others : g.byte ≠ Byte.newline ∧ Byte.isNameStart g.byte = false ∧
      g.byte ≠ Delimiter.quote.byte := by
    rcases start with digit | point
    · have between := Byte.isDigit_iff.mp digit
      refine ⟨?_, Byte.not_isNameStart_of_isDigit digit, ?_⟩
      · rintro newline
        simp [newline, Byte.newline] at between
      · rintro quote
        simp [quote, Delimiter.byte] at between
    · rw [point]
      decide
  rw [readLexeme, if_neg others.1, if_neg (by simp [others.2.1]), if_neg others.2.2, if_pos]
  simpa using start

theorem readLexeme_quote (start : g.byte = Delimiter.quote.byte) :
    readLexeme divides l (g :: gs) = readQuoted .quote .string l gs := by
  rw [readLexeme, start]
  rfl

theorem readLexeme_slash (start : g.byte = Delimiter.slash.byte) (opens : divides = false) :
    readLexeme divides l (g :: gs) = readQuoted .slash .regex l gs := by
  rw [readLexeme, start, opens]
  rfl

theorem readLexeme_operator (start : Vocabulary.StartsOperator g.byte)
    (slash : g.byte = Delimiter.slash.byte → divides = true) :
    readLexeme divides l (g :: gs) = readOperator l g gs := by
  obtain ⟨newline, name, quote, digit, point, null, _⟩ := start
  have divide : ¬ (g.byte = Delimiter.slash.byte ∧ (!divides) = true) := by
    rintro ⟨is_slash, opens⟩
    rw [slash is_slash] at opens
    contradiction
  rw [readLexeme, if_neg newline, if_neg (by simp [name]), if_neg quote,
    if_neg (by simp [digit, point]), if_neg divide, if_neg null]

end Dispatch

theorem bytesOf_dropWhile (p : Byte → Bool) (gs : List Glyph) :
    bytesOf (gs.dropWhile fun g => p g.byte) = (bytesOf gs).dropWhile p :=
  List.dropWhile_map.symm

theorem bytesOf_eq_cons {b : Byte} (bytes : bytesOf gs = b :: w) :
    ∃ g hs, gs = g :: hs ∧ g.byte = b ∧ bytesOf hs = w :=
  List.map_eq_cons_iff.mp bytes

theorem bytesOf_drop (bytes : bytesOf gs = w ++ more) : bytesOf (gs.drop w.length) = more := by
  rw [bytesOf, List.map_drop, ← bytesOf, bytes, List.drop_left]

/-- A word ends where the text behind it does not go on with it. -/
theorem readWord_parts (part : ∀ b ∈ w, Byte.isNamePart b = true)
    (stop : ∀ b, more.head? = some b → Byte.isNamePart b = false) (bytes : bytesOf gs = w ++ more) :
    bytesOf (gs.takeWhile fun g => Byte.isNamePart g.byte) = w ∧
      bytesOf (gs.dropWhile fun g => Byte.isNamePart g.byte) = more := by
  rw [bytesOf_takeWhile, bytesOf_dropWhile, bytes, List.takeWhile_append_of_pos part,
    List.dropWhile_append_of_pos part]
  cases more with
  | nil => simp
  | cons b more => simp [stop b rfl]

theorem Follows.stop {kind : Kind} (h : Follows kind more) (other : kind ≠ .newline) (b : Byte)
    (head : more.head? = some b) : Byte.isNamePart b = false := by
  rcases h with newline | ⟨c, at_head, which⟩
  · contradiction
  · obtain rfl : c = b := Option.some.inj (at_head.symm.trans head)
    split at which
    · rw [which]
      decide
    · rcases which with rfl | rfl <;> decide

section Literal

variable {d : Delimiter}

theorem enclose_append (d : Delimiter) (text more : Bytes) :
    d.enclose text ++ more = d.byte :: (text.flatMap Byte.escaped ++ d.byte :: more) := by
  simp [Delimiter.enclose]

theorem codeByte_hex (b : Byte) : codeByte 16 [b.toNat / 16, b.toNat % 16] = b := by
  simp only [codeByte, List.foldl_cons, List.foldl_nil, Nat.mul_zero, Nat.zero_add]
  rw [Nat.div_add_mod]
  exact UInt8.ofNat_toNat

theorem readEscape_hex {mark high low : Glyph} {m n : ℕ} (at_mark : mark.byte = 0x78)
    (at_high : Byte.hexValue? high.byte = some m) (at_low : Byte.hexValue? low.byte = some n) :
    readEscape d (mark :: high :: low :: gs) = ⟨[codeByte 16 [m, n]], [], 3⟩ := by
  have digits : hexDigits (high :: low :: gs) = [m, n] := by simp [hexDigits, at_high, at_low]
  rw [readEscape, at_mark, digits]
  rfl

theorem readLiteral_escape (at_slash : g.byte = Byte.backslash) : readLiteral d 0 (g :: gs) =
    (readLiteral d (readEscape d gs).used gs).prepend (readEscape d gs).bytes
      (readEscape d gs).warnings := by
  have opens : g.byte ≠ d.byte := by
    rw [at_slash]
    cases d <;> decide
  have more : g.byte ≠ Byte.newline := by
    rw [at_slash]
    decide
  rw [readLiteral, if_neg opens, if_neg more, if_pos at_slash]

/-- An escape of two digits is read as its byte, and the literal goes on behind it. -/
theorem readLiteral_escapedIn {high low : Bool} {b : Byte}
    (bytes : bytesOf gs = b.escapedIn high low ++ more) :
    readLiteral d 0 gs = (readLiteral d 0 (gs.drop 4)).prepend [b] [] := by
  obtain ⟨slash, gs, rfl, at_slash, bytes⟩ := bytesOf_eq_cons bytes
  obtain ⟨mark, gs, rfl, at_mark, bytes⟩ := bytesOf_eq_cons bytes
  obtain ⟨g, gs, rfl, at_high, bytes⟩ := bytesOf_eq_cons bytes
  obtain ⟨h, gs, rfl, at_low, _⟩ := bytesOf_eq_cons bytes
  have lt := b.toNat_lt
  have value_high := Byte.hexValue?_hexDigitIn (b.toNat / 16) (by omega) high
  have value_low := Byte.hexValue?_hexDigitIn (b.toNat % 16) (by omega) low
  rw [← at_high] at value_high
  rw [← at_low] at value_low
  rw [readLiteral_escape at_slash, readEscape_hex at_mark value_high value_low, codeByte_hex]
  rfl

/-- A literal of escapes is read back. -/
theorem readLiteral_escaped (text : Bytes)
    (bytes : bytesOf gs = text.flatMap Byte.escaped ++ d.byte :: more) :
    ∃ rest, bytesOf rest = more ∧ readLiteral d 0 gs = ⟨text, [], .closed, rest⟩ := by
  induction text generalizing gs with
  | nil =>
    obtain ⟨close, rest, rfl, at_close, bytes⟩ := bytesOf_eq_cons bytes
    exact ⟨rest, bytes, by rw [readLiteral, if_pos at_close]⟩
  | cons b text ih =>
    rw [List.flatMap_cons, Byte.escaped_eq, List.append_assoc] at bytes
    obtain ⟨rest, behind, read⟩ := ih (bytesOf_drop bytes)
    refine ⟨rest, behind, ?_⟩
    rw [readLiteral_escapedIn bytes]
    exact congrArg (Literal.prepend [b] []) read

theorem readQuoted_enclose (kind : Kind) (text : Bytes)
    (bytes : bytesOf gs = text.flatMap Byte.escaped ++ d.byte :: more) :
    ∃ rest, rest <:+ gs ∧ bytesOf rest = more ∧
      readQuoted d kind l gs = ⟨.ok ⟨kind, text, Binary64.zero, l⟩, [], rest⟩ := by
  obtain ⟨rest, behind, read⟩ := readLiteral_escaped text bytes
  have suffix := readLiteral_rest_suffix d 0 gs
  rw [read] at suffix
  exact ⟨rest, suffix, behind, by rw [readQuoted, read]⟩

end Literal

section Number

/-- The tail of a number is all that can belong to it. -/
theorem numberTail_of_takes {stage : Numeral.Stage} (takes : stage.takes w = true)
    (stop : ∀ b, more.head? = some b → b = 0x20 ∨ b = Byte.newline)
    (bytes : bytesOf gs = w ++ more) (unbroken : Unbroken (g :: gs)) (inner : g.byte ≠ Byte.newline) :
    numberTail stage gs = w := by
  induction w generalizing stage g gs with
  | nil =>
    cases gs with
    | nil => rfl
    | cons h gs =>
      have blank := stop h.byte (by rw [← bytes.trans (List.nil_append more)]; rfl)
      rw [numberTail, Numeral.Stage.next?_none blank]
      simp
  | cons b w ih =>
    obtain ⟨h, gs, rfl, rfl, behind⟩ := bytesOf_eq_cons bytes
    rw [Numeral.Stage.takes] at takes
    cases next : stage.next? h.byte with
    | none => simp [next] at takes
    | some stage' =>
      simp only [next] at takes
      have joined : h.joined = true := unbroken.rel_head? rfl inner
      have inner' : h.byte ≠ Byte.newline := by
        intro newline
        rw [Numeral.Stage.next?_none (.inr newline)] at next
        contradiction
      rw [numberTail, if_pos joined, next]
      dsimp only
      rw [ih takes behind unbroken.tail inner']

end Number

section Operator

variable {b : Byte}

theorem readOperator_pair {o : Operator} (found : Vocabulary.pair? g.byte b = some o)
    (bytes : bytesOf gs = b :: more) :
    ∃ rest, rest <:+ gs ∧ bytesOf rest = more ∧
      readOperator l g gs = .plain (.operator o) [g.byte, b] l rest := by
  obtain ⟨h, rest, rfl, rfl, behind⟩ := bytesOf_eq_cons bytes
  have star : ¬ (g.byte = 0x2a ∧ h.byte = 0x2a) := by
    rintro ⟨star, star'⟩
    rw [star, star'] at found
    revert found
    decide +revert
  refine ⟨rest, List.suffix_cons _ _, behind, ?_⟩
  simp only [readOperator, List.take_succ_cons, bytesOf, List.map_cons, if_neg star, found]
  rfl

/-- An operator is read back, whichever way it is spelled. -/
theorem readOperator_spelling {o : Operator} (spelled : o.Spelled (g.byte :: w))
    (stop : ∃ b, more.head? = some b ∧ (b = 0x20 ∨ b = Byte.newline))
    (bytes : bytesOf gs = w ++ more) :
    ∃ rest, rest <:+ gs ∧ bytesOf rest = more ∧
      readOperator l g gs = .plain (.operator o) (g.byte :: w) l rest := by
  obtain ⟨b, head, blank⟩ := stop
  obtain ⟨others, rfl⟩ := List.head?_eq_some_iff.mp head
  generalize text : g.byte :: w = v at spelled
  cases spelled.found with
  | single found =>
    obtain ⟨first, rfl⟩ := List.cons.inj text
    rw [← first] at found ⊢
    obtain ⟨h, rest, rfl, rfl, _⟩ := bytesOf_eq_cons (w := others) bytes
    exact ⟨_, List.suffix_refl _, bytes, by rw [readOperator_single blank, found]⟩
  | pair found =>
    obtain ⟨first, rfl⟩ := List.cons.inj text
    rw [← first] at found ⊢
    exact readOperator_pair found bytes
  | stars =>
    obtain ⟨first, rfl⟩ := List.cons.inj text
    obtain ⟨second, rest, rfl, at_second, behind⟩ := bytesOf_eq_cons bytes
    obtain ⟨third, rest, rfl, rfl, _⟩ := bytesOf_eq_cons behind
    have not_assign : [third.byte] ≠ [0x3d] := by
      rcases blank with space | newline
      · rw [space]
        decide
      · rw [newline]
        decide
    refine ⟨third :: rest, List.suffix_cons _ _, behind, ?_⟩
    simp [readOperator, bytesOf, first, at_second, not_assign]
  | starsAssign =>
    obtain ⟨first, rfl⟩ := List.cons.inj text
    obtain ⟨second, rest, rfl, at_second, bytes⟩ := bytesOf_eq_cons bytes
    obtain ⟨third, rest, rfl, at_third, behind⟩ := bytesOf_eq_cons bytes
    refine ⟨rest, (List.suffix_cons _ _).trans (List.suffix_cons _ _), behind, ?_⟩
    simp [readOperator, bytesOf, first, at_second, at_third]

end Operator

theorem Follows.blank {kind : Kind} (h : Follows kind more) (other : kind ≠ .newline)
    (not_function : kind ≠ .function) : ∃ b, more.head? = some b ∧ (b = 0x20 ∨ b = Byte.newline) := by
  rcases h with newline | ⟨b, head, which⟩
  · contradiction
  · rw [if_neg not_function] at which
    exact ⟨b, head, which⟩

section Word

variable {divides : Bool} (word : w.IsWord) (bytes : bytesOf gs = w ++ more)
  (stop : ∀ b, more.head? = some b → Byte.isNamePart b = false)

include word bytes stop

/-- What is read from a word: the words themselves are told apart as before. -/
theorem readLexeme_of_word : ∃ rest, rest <:+ gs ∧ bytesOf rest = more ∧
    readLexeme divides l gs =
      match Vocabulary.keyword? w with
      | some k => .plain (.keyword k) w l rest
      | none =>
        match Vocabulary.builtin? w with
        | some b => .plain (.builtin b) w l rest
        | none =>
          if more.head? = some 0x28 then .plain .function w l rest
          else .plain .name w l (skipBlanks rest) := by
  obtain ⟨⟨b, head, start⟩, part⟩ := word
  obtain ⟨w', rfl⟩ := List.head?_eq_some_iff.mp head
  obtain ⟨at_word, behind⟩ := readWord_parts part stop bytes
  have first : readLexeme divides l gs = readWord l gs := by
    obtain ⟨g, gs, rfl, rfl, _⟩ := bytesOf_eq_cons bytes
    exact readLexeme_word start
  refine ⟨_, List.dropWhile_suffix _, behind, ?_⟩
  rw [first, readWord, at_word, ← List.head?_map]
  change _ = match Vocabulary.keyword? (b :: w') with
      | some k => _
      | none => _
  rw [← behind]
  rfl

end Word

/-- A token that is written is read back. -/
theorem readLexeme_written (spelled : t.Spelled divides) (follows : Follows t.kind more)
    (bytes : bytesOf gs = t.written ++ more) (unbroken : Unbroken gs) :
    (readLexeme divides l gs).ReadsBack t gs more := by
  cases spelled with
  | newline =>
    obtain ⟨g, gs, rfl, newline, behind⟩ := bytesOf_eq_cons bytes
    refine ⟨l, gs, List.suffix_cons _ _, behind, .inl ?_⟩
    rw [readLexeme, if_pos newline]
    rfl
  | keyword word found =>
    obtain ⟨rest, suffix, behind, read⟩ := readLexeme_of_word word bytes (follows.stop (by simp))
    rw [found] at read
    exact ⟨l, rest, suffix, behind, .inl read⟩
  | builtin word not_keyword found =>
    obtain ⟨rest, suffix, behind, read⟩ := readLexeme_of_word word bytes (follows.stop (by simp))
    rw [not_keyword, found] at read
    exact ⟨l, rest, suffix, behind, .inl read⟩
  | function word not_keyword not_builtin =>
    obtain ⟨rest, suffix, behind, read⟩ := readLexeme_of_word word bytes (follows.stop (by simp))
    have called : more.head? = some 0x28 := by simpa [Follows] using follows
    rw [not_keyword, not_builtin, if_pos called] at read
    exact ⟨l, rest, suffix, behind, .inl read⟩
  | name word not_keyword not_builtin =>
    obtain ⟨rest, suffix, behind, read⟩ := readLexeme_of_word word bytes (follows.stop (by simp))
    obtain ⟨b, head, blank⟩ := follows.blank (by simp) (by simp)
    have not_called : more.head? ≠ some 0x28 := by
      rw [head]
      rcases blank with rfl | rfl <;> decide
    rw [not_keyword, not_builtin, if_neg not_called] at read
    exact ⟨l, rest, suffix, behind, .inr read⟩
  | @string text =>
    obtain ⟨g, gs, rfl, quote, behind⟩ := bytesOf_eq_cons (bytes.trans (enclose_append _ text more))
    obtain ⟨rest, suffix, behind, read⟩ := readQuoted_enclose .string text behind
    rw [readLexeme_quote quote]
    exact ⟨l, rest, suffix.trans (List.suffix_cons _ _), behind, .inl read⟩
  | @regex text _ opens =>
    obtain ⟨g, gs, rfl, slash, behind⟩ := bytesOf_eq_cons (bytes.trans (enclose_append _ text more))
    obtain ⟨rest, suffix, behind, read⟩ := readQuoted_enclose .regex text behind
    rw [readLexeme_slash slash opens]
    exact ⟨l, rest, suffix.trans (List.suffix_cons _ _), behind, .inl read⟩
  | @number b w n _ start row read whole =>
    obtain ⟨g, gs, rfl, rfl, (behind : bytesOf gs = w ++ more)⟩ := bytesOf_eq_cons bytes
    have stop : ∀ b, more.head? = some b → b = 0x20 ∨ b = Byte.newline := by
      obtain ⟨c, head, blank⟩ := follows.blank (by simp) (by simp)
      intro b at_head
      rwa [← Option.some.inj (head.symm.trans at_head)]
    have inner : g.byte ≠ Byte.newline := by
      rintro newline
      rw [newline] at start
      revert start
      decide
    have window : numberWindow g gs = g.byte :: w :=
      congrArg (g.byte :: ·) (numberTail_of_takes row stop behind unbroken inner)
    refine ⟨l, gs.drop w.length, (List.drop_suffix _ _).trans (List.suffix_cons _ _),
      bytesOf_drop behind, .inl ?_⟩
    rw [readLexeme_number start, readNumber, window, read]
    simp [whole]
  | operator spelled slash =>
    obtain ⟨b, w, rfl, starts⟩ := spelled.starts
    obtain ⟨g, gs, rfl, rfl, behind⟩ := bytesOf_eq_cons bytes
    obtain ⟨rest, suffix, behind, read⟩ := readOperator_spelling spelled
      (follows.blank (by simp) (by simp)) behind
    rw [readLexeme_operator starts fun is_slash => slash (by simp [is_slash])]
    exact ⟨l, rest, suffix.trans (List.suffix_cons _ _), behind, .inl read⟩

end Scanner
end AwkCore
