import Mathlib.Data.List.Forall2
import AwkCore.Scanner

/-!
# Glyphs that read alike

Two lists of glyphs are alike when they hold the same bytes at places that correspond, and what is
joined in the second is joined in the first. All that the scanner reads from the bytes alone is then
alike too: words, literals with their warnings, operators, comments and the space between tokens.
-/
namespace AwkCore

variable {L : Location → Location → Prop}

structure Glyph.Like (L : Location → Location → Prop) (g h : Glyph) : Prop where
  byte_eq : g.byte = h.byte
  location : L g.location h.location
  joined : h.joined = true → g.joined = true

abbrev Alike (L : Location → Location → Prop) : List Glyph → List Glyph → Prop :=
  List.Forall₂ (Glyph.Like L)

structure Diagnostic.Like (L : Location → Location → Prop) (d e : Diagnostic) : Prop where
  location : L d.location e.location
  message_eq : d.message = e.message

structure Token.Like (L : Location → Location → Prop) (t u : Token) : Prop where
  kind_eq : t.kind = u.kind
  text_eq : t.text = u.text
  value_eq : t.value = u.value
  location : L t.location u.location

namespace Scanner

/-- Like tokens, or the same complaint. -/
inductive Outcome.Like (L : Location → Location → Prop) :
    Except Failure Token → Except Failure Token → Prop
  | token {t u : Token} (like : t.Like L u) : Like L (.ok t) (.ok u)
  | refused {l m : Location} (place : L l m) (message : String) :
    Like L (.error (.lexical l message)) (.error (.lexical m message))

structure Step.Like (L : Location → Location → Prop) (a b : Step) : Prop where
  outcome : Outcome.Like L a.outcome b.outcome
  warnings : List.Forall₂ (Diagnostic.Like L) a.warnings b.warnings
  rest : Alike L a.rest b.rest

variable {gs hs : List Glyph} {g h : Glyph} {l m : Location}

theorem Step.Like.plain (kind : Kind) (text : Bytes) (place : L l m) (rest : Alike L gs hs) :
    (Step.plain kind text l gs).Like L (Step.plain kind text m hs) :=
  ⟨.token ⟨rfl, rfl, rfl, place⟩, .nil, rest⟩

theorem Step.Like.refuse (message : String) (place : L l m) (rest : Alike L gs hs) :
    (Step.refuse l message gs).Like L (Step.refuse m message hs) :=
  ⟨.refused place message, .nil, rest⟩

theorem Alike.map_byte {β : Type} (f : Byte → β) (alike : Alike L gs hs) :
    gs.map (fun g => f g.byte) = hs.map fun g => f g.byte := by
  induction alike with
  | nil => rfl
  | cons like _ ih => rw [List.map_cons, List.map_cons, like.byte_eq, ih]

theorem Alike.bytesOf (alike : Alike L gs hs) : bytesOf gs = bytesOf hs := Alike.map_byte id alike

theorem Alike.head_byte (alike : Alike L gs hs) :
    gs.head?.map Glyph.byte = hs.head?.map Glyph.byte := by
  cases alike with
  | nil => rfl
  | cons like _ => exact congrArg some like.byte_eq

theorem Alike.takeWhile (p : Byte → Bool) (alike : Alike L gs hs) :
    Alike L (gs.takeWhile fun g => p g.byte) (hs.takeWhile fun g => p g.byte) := by
  induction alike with
  | nil => exact .nil
  | cons like _ ih =>
    rw [List.takeWhile_cons, List.takeWhile_cons, like.byte_eq]
    split
    · exact .cons like ih
    · exact .nil

theorem Alike.dropWhile (p : Byte → Bool) (alike : Alike L gs hs) :
    Alike L (gs.dropWhile fun g => p g.byte) (hs.dropWhile fun g => p g.byte) := by
  induction alike with
  | nil => exact .nil
  | cons like rest ih =>
    rw [List.dropWhile_cons, List.dropWhile_cons, like.byte_eq]
    split
    · exact ih
    · exact .cons like rest

inductive Spacing.Like (L : Location → Location → Prop) : Spacing → Spacing → Prop
  | token {gs hs : List Glyph} (rest : Alike L gs hs) : Like L (.token gs) (.token hs)
  | strayBackslash {l m : Location} {gs hs : List Glyph} (place : L l m) (rest : Alike L gs hs) :
    Like L (.strayBackslash l gs) (.strayBackslash m hs)

theorem skipSpacing_alike (alike : Alike L gs hs) :
    (skipSpacing gs).Like L (skipSpacing hs) := by
  fun_induction skipSpacing gs generalizing hs with
  | case1 =>
    cases alike
    exact .token .nil
  | case2 g blank =>
    obtain _ | ⟨like, _ | _⟩ := alike
    rw [skipSpacing, ← like.byte_eq, if_pos blank]
    exact .token .nil
  | case3 g solid slash =>
    obtain _ | ⟨like, _ | _⟩ := alike
    rw [skipSpacing, ← like.byte_eq, if_neg solid, if_pos slash]
    exact .strayBackslash like.location .nil
  | case4 g solid other =>
    obtain _ | ⟨like, _ | _⟩ := alike
    rw [skipSpacing, ← like.byte_eq, if_neg solid, if_neg other]
    exact .token (.cons like .nil)
  | case5 g next gs blank ih =>
    obtain _ | ⟨like, rest⟩ := alike
    obtain _ | ⟨likeNext, rest⟩ := rest
    rw [skipSpacing, ← like.byte_eq, if_pos blank]
    exact ih (.cons likeNext rest)
  | case6 g next gs solid slash newline ih =>
    obtain _ | ⟨like, rest⟩ := alike
    obtain _ | ⟨likeNext, rest⟩ := rest
    rw [skipSpacing, ← like.byte_eq, if_neg solid, if_pos slash, ← likeNext.byte_eq, if_pos newline]
    exact ih rest
  | case7 g next gs solid slash other =>
    obtain _ | ⟨like, rest⟩ := alike
    obtain _ | ⟨likeNext, rest⟩ := rest
    rw [skipSpacing, ← like.byte_eq, if_neg solid, if_pos slash, ← likeNext.byte_eq, if_neg other]
    exact .strayBackslash like.location (.cons likeNext rest)
  | case8 g next gs solid other =>
    obtain _ | ⟨like, rest⟩ := alike
    obtain _ | ⟨likeNext, rest⟩ := rest
    rw [skipSpacing, ← like.byte_eq, if_neg solid, if_neg other]
    exact .token (.cons like (.cons likeNext rest))

theorem skipComment_alike (alike : Alike L gs hs) : Alike L (skipComment gs) (skipComment hs) := by
  cases alike with
  | nil => exact .nil
  | cons like rest =>
    rw [skipComment, skipComment, like.byte_eq]
    split
    · exact Alike.dropWhile (fun b => b ≠ Byte.newline) rest
    · exact .cons like rest

theorem placeOf_alike (place : L l m) (alike : Alike L gs hs) : L (placeOf l gs) (placeOf m hs) := by
  cases alike with
  | nil => exact place
  | cons like _ => exact like.location

theorem readWord_alike (place : L l m) (alike : Alike L gs hs) :
    (readWord l gs).Like L (readWord m hs) := by
  have word := Alike.bytesOf (Alike.takeWhile Byte.isNamePart alike)
  have rest := Alike.dropWhile Byte.isNamePart alike
  rw [readWord, readWord, word, Alike.head_byte rest]
  split
  · exact .plain _ _ place rest
  split
  · exact .plain _ _ place rest
  split
  · exact .plain _ _ place rest
  · exact .plain _ _ place (Alike.dropWhile Byte.isBlank rest)

section Literal

variable {d : Delimiter}

structure Escape.Like (L : Location → Location → Prop) (e f : Escape) : Prop where
  bytes_eq : e.bytes = f.bytes
  used_eq : e.used = f.used
  warnings : List.Forall₂ (Diagnostic.Like L) e.warnings f.warnings

structure Literal.Like (L : Location → Location → Prop) (a b : Literal) : Prop where
  text_eq : a.text = b.text
  ending_eq : a.ending = b.ending
  warnings : List.Forall₂ (Diagnostic.Like L) a.warnings b.warnings
  rest : Alike L a.rest b.rest

theorem hexDigits_alike (alike : Alike L gs hs) : hexDigits gs = hexDigits hs := by
  have digits := Alike.map_byte Byte.hexValue? (List.forall₂_take 2 alike)
  rw [hexDigits, hexDigits, digits]

theorem octalDigits_alike (alike : Alike L gs hs) : octalDigits gs = octalDigits hs :=
  Alike.map_byte Byte.digitValue (Alike.takeWhile Byte.isOctalDigit (List.forall₂_take 3 alike))

theorem unknownEscape_alike (like : g.Like L h) :
    Escape.Like L (unknownEscape d g) (unknownEscape d h) := by
  have warning (message : String) : List.Forall₂ (Diagnostic.Like L)
      [⟨g.location, message⟩] [⟨h.location, message⟩] := .cons ⟨like.location, rfl⟩ .nil
  cases d with
  | quote =>
    simp only [unknownEscape, like.byte_eq]
    exact ⟨rfl, rfl, warning _⟩
  | slash =>
    simp only [unknownEscape, like.byte_eq]
    refine ⟨rfl, rfl, ?_⟩
    dsimp only
    split
    · exact .nil
    · exact warning _

theorem readEscape_alike (alike : Alike L gs hs) :
    Escape.Like L (readEscape d gs) (readEscape d hs) := by
  cases alike with
  | nil => exact ⟨rfl, rfl, .nil⟩
  | cons like rest =>
    rename_i g h gs hs
    have hex := hexDigits_alike rest
    have octal := octalDigits_alike (List.Forall₂.cons like rest)
    have fixed (e : Escape) (none : e.warnings = []) : Escape.Like L e e :=
      ⟨rfl, rfl, none ▸ .nil⟩
    rw [readEscape, readEscape, like.byte_eq, hex, octal]
    split
    · exact fixed _ rfl
    split
    · split <;> exact fixed _ rfl
    split
    · dsimp only
      split <;> exact fixed _ rfl
    split
    · exact fixed _ rfl
    split
    · exact fixed _ rfl
    · exact unknownEscape_alike like

theorem Literal.Like.prepend {a b : Literal} (like : Literal.Like L a b) (bytes : Bytes)
    {ds es : List Diagnostic} (warnings : List.Forall₂ (Diagnostic.Like L) ds es) :
    Literal.Like L (a.prepend bytes ds) (b.prepend bytes es) :=
  ⟨congrArg (bytes ++ ·) like.text_eq, like.ending_eq, List.rel_append warnings like.warnings, like.rest⟩

theorem readLiteral_alike {used : ℕ} (alike : Alike L gs hs) :
    Literal.Like L (readLiteral d used gs) (readLiteral d used hs) := by
  fun_induction readLiteral d used gs generalizing hs with
  | case1 used =>
    cases alike
    rw [readLiteral]
    exact ⟨rfl, rfl, .nil, .nil⟩
  | case2 g gs used ih =>
    obtain _ | ⟨_, rest⟩ := alike
    rw [readLiteral]
    exact ih rest
  | case3 g gs closes =>
    obtain _ | ⟨like, rest⟩ := alike
    rw [readLiteral, ← like.byte_eq, if_pos closes]
    exact ⟨rfl, rfl, .nil, rest⟩
  | case4 g gs opens newline =>
    obtain _ | ⟨like, rest⟩ := alike
    rw [readLiteral, ← like.byte_eq, if_neg opens, if_pos newline]
    exact ⟨rfl, rfl, .nil, .cons like rest⟩
  | case5 g gs opens more slash e =>
    rename_i ih
    obtain _ | ⟨like, rest⟩ := alike
    have escape := readEscape_alike (d := d) rest
    rw [readLiteral, ← like.byte_eq, if_neg opens, if_neg more, if_pos slash]
    dsimp only
    rw [← escape.used_eq, ← escape.bytes_eq]
    exact (ih rest).prepend _ escape.warnings
  | case6 g gs opens more other ih =>
    obtain _ | ⟨like, rest⟩ := alike
    rw [readLiteral, ← like.byte_eq, if_neg opens, if_neg more, if_neg other]
    exact (ih rest).prepend _ .nil

theorem readQuoted_alike (kind : Kind) (place : L l m) (alike : Alike L gs hs) :
    (readQuoted d kind l gs).Like L (readQuoted d kind m hs) := by
  have like : Literal.Like L (readLiteral d 0 gs) (readLiteral d 0 hs) := readLiteral_alike alike
  refine ⟨?_, like.warnings, like.rest⟩
  simp only [readQuoted, like.ending_eq, like.text_eq]
  split
  · exact .token ⟨rfl, rfl, rfl, place⟩
  · exact .refused place _
  · exact .refused place _

end Literal

theorem unexpected_alike (b : Byte) (place : L l m) (alike : Alike L gs hs) :
    (unexpected l b gs).Like L (unexpected m b hs) := .refuse _ place alike

theorem readOperator_alike (place : L l m) (like : g.Like L h) (alike : Alike L gs hs) :
    (readOperator l g gs).Like L (readOperator m h hs) := by
  have ahead := Alike.bytesOf (List.forall₂_take 2 alike)
  have drop (n : ℕ) := List.forall₂_drop n alike
  rw [readOperator, readOperator, ahead, like.byte_eq]
  split
  · split
    · split
      · exact .plain _ _ place (drop 2)
      · exact .plain _ _ place (drop 1)
    · split
      · exact .plain _ _ place (drop 1)
      · split
        · exact .plain _ _ place alike
        · exact unexpected_alike _ place alike
  · split
    · exact .plain _ _ place alike
    · exact unexpected_alike _ place alike

end Scanner

end AwkCore
