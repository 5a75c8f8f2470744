import AwkCore.Proofs.Program.Faces
import AwkCore.Proofs.Scanner.Lines
import AwkCore.Proofs.Scanner.Moved

/-!
# Programs that are appended

A program that ends with a line leaves nothing behind for the text after it: the text scans as it does
alone, only further down.
-/
namespace AwkCore

/-- A place that many lines further down. -/
def Location.lower (n : ℕ) (l : Location) : Location := { l with line := l.line + n }

def Line.moved (f : Location → Location) (l : Line) : Line := { l with location := f l.location }

namespace Scanner.Moved

variable {f : Location → Location} {gs hs gs' hs' : List Glyph} {g h : Glyph}

theorem nil : Moved f [] [] := ⟨.nil, .nil⟩

theorem cons (byte : h.byte = g.byte) (place : h.location = f g.location)
    (joined : h.joined = g.joined) (moved : Moved f gs hs) : Moved f (g :: gs) (h :: hs) :=
  ⟨.cons ⟨byte.symm, place, by simp [joined]⟩ moved.forth,
    .cons ⟨byte, place, by simp [joined]⟩ moved.back⟩

theorem append (first : Moved f gs hs) (second : Moved f gs' hs') :
    Moved f (gs ++ gs') (hs ++ hs') :=
  ⟨List.rel_append first.forth second.forth, List.rel_append first.back second.back⟩

end Scanner.Moved

namespace Program

open Scanner (Moved EndsLine)

variable {f : Location → Location} {p q : Bytes}

/-- The glyphs of lines in another place, whatever stands before them. -/
theorem ofBytes_moved (l : Location) (m n : ℕ) (joined : Bool) (bs : Bytes) :
    Moved f (Stream.ofBytes l m joined bs) (Stream.ofBytes (f l) n joined bs) := by
  induction bs generalizing joined with
  | nil => exact .nil
  | cons b bs ih =>
    rw [Stream.ofBytes, Stream.ofBytes]
    split
    · exact ih false
    · exact .cons rfl rfl rfl (ih true)

theorem ofLines_moved (m n : ℕ) (ls : List Line) :
    Moved f (Stream.ofLines m ls) (Stream.ofLines n (ls.map (Line.moved f))) := by
  induction ls generalizing m n with
  | nil => exact .nil
  | cons l ls ih => exact (ofBytes_moved _ _ _ _ _).append (ih _ _)

theorem ofLines_append (n : ℕ) (ls ms : List Line) : Stream.ofLines n (ls ++ ms) =
    Stream.ofLines n ls ++ Stream.ofLines (n + ls.length) ms := by
  induction ls generalizing n with
  | nil => rfl
  | cons l ls ih =>
    rw [List.cons_append, Stream.ofLines, Stream.ofLines, ih, List.append_assoc, List.length_cons,
      Nat.add_assoc, Nat.add_comm 1]

/-- A text is cut apart from what stands before it when that ends a line. -/
theorem cut_append (ends : ∀ b, p.getLast? = some b → b = Byte.newline) (q : Bytes) :
    cut (p ++ q) = cut p ++ cut q ∧ (cut p).length = p.count Byte.newline := by
  induction p with
  | nil => exact ⟨rfl, rfl⟩
  | cons b bs ih =>
    have behind : ∀ c, bs.getLast? = some c → c = Byte.newline := by
      intro c last
      exact ends c (by simp [List.getLast?_cons, last])
    obtain ⟨split, length⟩ := ih behind
    rw [List.cons_append, cut, cut, split]
    by_cases newline : b = Byte.newline
    · simp [newline, length]
    · have nonempty : bs ≠ [] := by
        rintro rfl
        exact newline (ends b rfl)
      cases lines : cut bs with
      | nil => exact absurd lines (cut_ne_nil nonempty)
      | cons l ls => simp [newline, ← length, lines]

theorem linesOf_append (ends : p.getLast? = some Byte.newline) (unit : String) (q : Bytes) :
    linesOf unit (p ++ q) = linesOf unit p ++
      (linesOf unit q).map (Line.moved (Location.lower (p.count Byte.newline))) := by
  obtain ⟨split, length⟩ := cut_append (fun b last => Option.some.inj (last.symm.trans ends)) q
  rw [linesOf, linesOf, linesOf, split, List.mapIdx_append, length]
  congr 1
  apply List.ext_getElem?
  intro i
  simp [Line.moved, Location.lower, Function.comp_def, Nat.add_right_comm]

theorem linesOf_append_length (ends : p.getLast? = some Byte.newline) (unit : String) (q : Bytes) :
    (linesOf unit (p ++ q)).length = (linesOf unit q).length + p.count Byte.newline := by
  have length := (cut_append (fun b last => Option.some.inj (last.symm.trans ends)) q).2
  rw [linesOf_append ends, List.length_append, List.length_map, Nat.add_comm, ← length]
  simp [linesOf]

/-- The place where a text ends. -/
def endOf (text : Bytes) : Location := ⟨inlineName, (linesOf inlineName text).length⟩

theorem endOf_append (ends : p.getLast? = some Byte.newline) (q : Bytes) :
    endOf (p ++ q) = (endOf q).lower (p.count Byte.newline) := by
  rw [endOf, linesOf_append_length ends]
  rfl

/-- The glyphs of a text: those of its lines, and the line feed supplied at its end. -/
theorem inline_glyphs (text : Bytes) : (Stream.ofProgram (inline text)).glyphs =
    Stream.ofLines 0 (linesOf inlineName text) ++
      if text.getLast? = some Byte.newline then []
      else [⟨Byte.newline, endOf text, (linesOf inlineName text).length, false⟩] := by
  have lines : (inline text).lines = linesOf inlineName text := List.append_nil _
  simp only [Stream.ofProgram, Stream.supplied, lines, inline_text]
  rfl

theorem inline_endsLine (ends : p.getLast? = some Byte.newline) :
    EndsLine (Stream.ofProgram (inline p)).glyphs := by
  intro g last
  obtain ⟨before, rfl⟩ := List.getLast?_eq_some_iff.mp ends
  obtain ⟨after, split⟩ := faces_append false before
  have shown := congrArg List.getLast? (inline_faces (before ++ [Byte.newline]))
  have other : Byte.newline ≠ Byte.carriageReturn := by decide
  rw [closing, if_pos ends, split, List.append_nil, List.getLast?_map, last] at shown
  simp only [faces, if_neg other, List.getLast?_concat] at shown
  exact congrArg Prod.fst (Option.some.inj shown)

/-- The glyphs of a text that is appended are its own, further down. -/
theorem inline_append (ends : p.getLast? = some Byte.newline) (nonempty : q ≠ []) :
    ∃ gs, (Stream.ofProgram (inline (p ++ q))).glyphs = (Stream.ofProgram (inline p)).glyphs ++ gs ∧
      Moved (Location.lower (p.count Byte.newline)) (Stream.ofProgram (inline q)).glyphs gs := by
  have last : (p ++ q).getLast? = q.getLast? := by
    obtain ⟨before, b, rfl⟩ := List.eq_nil_or_concat' q |>.resolve_left nonempty
    rw [← List.append_assoc, List.getLast?_concat, List.getLast?_concat]
  have first := inline_glyphs p
  rw [if_pos ends, List.append_nil] at first
  rw [inline_glyphs (p ++ q), inline_glyphs q, first, last, linesOf_append ends, ofLines_append,
    List.append_assoc]
  refine ⟨_, rfl, (ofLines_moved _ _ _).append ?_⟩
  split
  · exact .nil
  · exact .cons rfl (endOf_append ends q) rfl .nil

theorem reading_inline_iff (text : Bytes) (r : Reading) :
    (Scanner.ofProgram (inline text)).reading = r ↔
      Scanner.Reads (endOf text) .endOfInput (Stream.ofProgram (inline text)).glyphs r := by
  have readable : (Scanner.ofProgram (inline text)).Readable := ⟨_, rfl⟩
  constructor
  · rintro rfl
    exact readable.reads
  · exact readable.reading_eq

/-- A text that stands behind a program that ends with a line scans as it does alone, further down:
its tokens, its failure and its warnings come behind those of the program. -/
theorem reading_append {ts : List Token} {line e : Token} {warnings : List Diagnostic}
    (ends : p.getLast? = some Byte.newline)
    (read : (Scanner.ofProgram (inline p)).reading = ⟨ts ++ [line, e], none, warnings⟩)
    (at_line : line.kind = .newline) (nonempty : q ≠ []) :
    (Scanner.ofProgram (inline (p ++ q))).reading =
      ((Scanner.ofProgram (inline q)).reading.moved (Location.lower (p.count Byte.newline))).after
        (ts ++ [line]) warnings := by
  obtain ⟨gs, glyphs, moved⟩ := inline_append ends nonempty
  obtain ⟨rest, l, _, passes, at_end⟩ := Scanner.passes_of_reading read at_line
  have ends_line := inline_endsLine ends
  -- What the program leaves at its end is skipped before the first token of the text.
  have skipped : Scanner.readToken (endOf (p ++ q)) Kind.endOfInput.producesValue gs =
      Scanner.readToken (endOf (p ++ q)) Kind.newline.producesValue (rest ++ gs) :=
    (Scanner.readToken_append_end _ (ends_line.suffix passes.rest_suffix)
      (congrArg Scanner.Step.outcome at_end) rfl gs).symm
  have alone := ((reading_inline_iff q _).mp rfl).moved moved
  rw [← endOf_append ends] at alone
  rw [reading_inline_iff, glyphs]
  exact (passes.append ends_line _ gs).reads (alone.congr skipped)

/-- The program leaves a continued line behind, and the text fails in its second line. -/
theorem reading_append_continued :
    let p := ascii "x = \"\\q\" # note\n\\\n"
    let q := ascii "\"\\z\"\n\"open"
    let token (kind : Kind) (text : Bytes) : Token := ⟨kind, text, Binary64.zero, ⟨inlineName, 1⟩⟩
    let ts := [token .name (ascii "x"), token (.operator .assign) (ascii "="),
      token .string (ascii "q")]
    let line := token .newline [Byte.newline]
    let e := Token.ending ⟨inlineName, 2⟩
    let warnings := [⟨⟨inlineName, 1⟩, "'\\q' treated as plain 'q'"⟩]
    (Scanner.ofProgram (inline p)).reading = ⟨ts ++ [line, e], none, warnings⟩ ∧
      (Scanner.ofProgram (inline (p ++ q))).reading =
        ((Scanner.ofProgram (inline q)).reading.moved (Location.lower (p.count Byte.newline))).after
          (ts ++ [line]) warnings := by
  intro p q token ts line e warnings
  have read : (Scanner.ofProgram (inline p)).reading = ⟨ts ++ [line, e], none, warnings⟩ := by
    rw [Scanner.reading, Scanner.advances_eq_within (Nat.lt_succ_self _)]
    decide +kernel
  exact ⟨read, reading_append (by decide) read rfl (by decide)⟩

end Program

end AwkCore
