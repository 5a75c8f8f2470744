import AwkCore.CommandLine
import Mathlib.Data.List.Forall2

/-!
# The columns of a listing

A token is listed by its line, its class, its kind and its text. In the text every byte is shown by signs
that can be seen, and none of the columns has a tab or a line feed in it. So a line of the listing is the
line of one token.
-/
namespace AwkCore

/-- The columns of a token in a listing. -/
def Token.columns (t : Token) : List String :=
  [toString t.location.line, t.kind.tokenClass.text, t.kind.text,
    CommandLine.textOf (Escaped.escape t.text)]

namespace CommandLine

/-- How a byte is shown: a control byte that has a name by its name, quotes and the backslash behind a
backslash, other signs of ASCII as they are, and the rest in two hexadecimal digits. -/
inductive ShowsByte : Byte → String → Prop
  | tab : ShowsByte 0x09 "\\t"
  | lineFeed : ShowsByte 0x0a "\\n"
  | carriageReturn : ShowsByte 0x0d "\\r"
  | quote : ShowsByte 0x22 "\\\""
  | apostrophe : ShowsByte 0x27 "\\'"
  | backslash : ShowsByte 0x5c "\\\\"
  | sign {b : Byte} (printable : Byte.isPrintable b = true) (other : b ∉ [0x22, 0x27, 0x5c]) :
      ShowsByte b (String.ofList [Char.ofNat b.toNat])
  | digits {b : Byte} (unseen : Byte.isPrintable b = false) (unnamed : b ∉ [0x09, 0x0a, 0x0d]) :
      ShowsByte b (String.ofList
        ['\\', 'x', Nat.digitChar (b.toNat / 16), Nat.digitChar (b.toNat % 16)])

/-- What shows a text: what shows its bytes, one after another. -/
def Shows (text : Bytes) (shown : String) : Prop :=
  ∃ parts, List.Forall₂ ShowsByte text parts ∧ shown = String.join parts

/-- No tab and no line feed, so that a column ends where it ends. -/
def PlainColumn (column : String) : Prop := '\t' ∉ column.toList ∧ '\n' ∉ column.toList

/-- A text is a table of some rows: each row has a line of its own, with its columns between tabs. -/
structure IsTable (text : String) (rows : List (List String)) : Prop where
  written : text = String.join (rows.map fun row => "\t".intercalate row ++ "\n")
  some_column : ∀ row ∈ rows, row ≠ []
  plain : ∀ row ∈ rows, ∀ column ∈ row, PlainColumn column

theorem toNat_shown (b : Byte) : (Char.ofNat b.toNat).toNat = b.toNat := by
  have lt := b.toNat_lt
  have valid : b.toNat.isValidChar := .inl (by omega)
  rw [Char.ofNat, dif_pos valid]
  rfl

theorem textOf_append (v w : Bytes) : textOf (v ++ w) = textOf v ++ textOf w := by
  rw [textOf, List.map_append, String.ofList_append]
  rfl

theorem digit_shown : ∀ n < 16, Char.ofNat (Byte.hexDigit n).toNat = Nat.digitChar n := by
  decide

theorem hexPair_shown (b : Byte) : textOf (ascii "\\x" ++ b.hexPair) = String.ofList
    ['\\', 'x', Nat.digitChar (b.toNat / 16), Nat.digitChar (b.toNat % 16)] := by
  have lt := b.toNat_lt
  rw [← digit_shown _ (by omega), ← digit_shown _ (by omega)]
  rfl

/-- Every byte is escaped in the way in which it is to be shown. -/
theorem showsByte_escapeByte (b : Byte) : ShowsByte b (textOf (Escaped.escapeByte b)) := by
  unfold Escaped.escapeByte
  split
  case isTrue tab =>
    obtain rfl := eq_of_beq tab
    exact .tab
  split
  case isTrue carriageReturn =>
    obtain rfl := eq_of_beq carriageReturn
    exact .carriageReturn
  split
  case isTrue newline =>
    obtain rfl := eq_of_beq newline
    exact .lineFeed
  split
  case isTrue sign =>
    simp only [Bool.or_eq_true, beq_iff_eq] at sign
    obtain (rfl | rfl) | rfl := sign
    · exact .apostrophe
    · exact .quote
    · exact .backslash
  case isFalse tab carriageReturn newline sign =>
    simp only [beq_iff_eq, Bool.or_eq_true, not_or] at tab carriageReturn newline sign
    split
    case isTrue printable => exact .sign printable (by simp [sign])
    case isFalse unseen =>
      rw [hexPair_shown]
      exact .digits (by simpa using unseen) (by simp [tab, carriageReturn, newline])

theorem shows_escape (text : Bytes) : Shows text (textOf (Escaped.escape text)) := by
  induction text with
  | nil => exact ⟨[], .nil, rfl⟩
  | cons b text ih =>
    obtain ⟨parts, shows, joined⟩ := ih
    refine ⟨_, .cons (showsByte_escapeByte b) shows, ?_⟩
    rw [String.join_cons, ← joined, ← textOf_append]
    rfl

theorem visible_of_all {s : String} (all : (s.toList.all fun c => 0x20 ≤ c.toNat) = true) :
    ∀ c ∈ s.toList, 0x20 ≤ c.toNat := by
  simpa using all

theorem ShowsByte.visible {b : Byte} {part : String} (shows : ShowsByte b part) :
    ∀ c ∈ part.toList, 0x20 ≤ c.toNat := by
  cases shows with
  | sign printable _ =>
    simp only [Byte.isPrintable, Bool.and_eq_true, decide_eq_true_eq,
      UInt8.le_iff_toNat_le] at printable
    simpa [toNat_shown] using printable.1
  | digits _ _ =>
    have digit : ∀ n < 16, 0x20 ≤ (Nat.digitChar n).toNat := by decide
    have lt := b.toNat_lt
    have high := digit (b.toNat / 16) (by omega)
    have low := digit (b.toNat % 16) (by omega)
    simp only [String.toList_ofList, List.forall_mem_cons]
    exact ⟨by decide, by decide, high, low, nofun⟩
  | _ => exact visible_of_all (by decide)

theorem Shows.plain {text : Bytes} {shown : String} (shows : Shows text shown) :
    PlainColumn shown := by
  obtain ⟨parts, bytes, rfl⟩ := shows
  have visible : ∀ c ∈ (String.join parts).toList, 0x20 ≤ c.toNat := by
    induction bytes with
    | nil => simp
    | cons byte _ ih =>
      rw [String.join_cons, String.toList_append, List.forall_mem_append]
      exact ⟨byte.visible, ih⟩
  exact ⟨fun tab => absurd (visible _ tab) (by decide),
    fun newline => absurd (visible _ newline) (by decide)⟩

/-- The classes and kinds of tokens have names in one word or some words. -/
theorem kind_plain (k : Kind) : PlainColumn k.tokenClass.text ∧ PlainColumn k.text := by
  unfold PlainColumn
  cases k with
  | builtin b => cases b <;> decide
  | operator o => cases o <;> decide
  | keyword k => cases k <;> decide
  | _ => decide

theorem number_plain (n : ℕ) : PlainColumn (toString n) := by
  have digits : ∀ c ∈ (toString n).toList, c.isDigit = true := by
    intro c mem
    rw [Nat.toString_eq_ofList_toDigits, String.toList_ofList] at mem
    exact Nat.isDigit_of_mem_toDigits (by decide) (by decide) mem
  exact ⟨fun tab => absurd (digits _ tab) (by decide),
    fun newline => absurd (digits _ newline) (by decide)⟩

theorem columns_plain (t : Token) : ∀ column ∈ t.columns, PlainColumn column := by
  obtain ⟨tokenClass, kind⟩ := kind_plain t.kind
  simp only [Token.columns, List.forall_mem_cons]
  exact ⟨number_plain t.location.line, tokenClass, kind, (shows_escape t.text).plain, nofun⟩

theorem isTable_lines (ts : List Token) :
    IsTable (String.join (ts.map tokenLine)) (ts.map Token.columns) where
  written := by
    rw [List.map_map]
    rfl
  some_column := by simp [Token.columns]
  plain := by simpa only [List.forall_mem_map] using fun t _ => columns_plain t

end CommandLine

end AwkCore
