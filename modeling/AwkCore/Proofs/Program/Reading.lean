import AwkCore.Program.Reader
import AwkCore.Proofs.Program.Places

/-!
# What a reader gives

Calls of a reader give the bytes of a program one after another, then the line feed that is missing
at its end, then nothing. A step says that a call takes the first of the glyphs that are coming and
leaves the others; how the program is cut into units, and where the line and the position in it
stand, does not show in them. The scanner's glyphs are those of the reader without the carriage
returns.
-/
namespace AwkCore

open Program (cut ofUnits linesOf readable flatten_cut)

namespace Bytes

theorem untilNewline_ne_nil {text : Bytes} (nonempty : text ≠ []) : text.untilNewline.1 ≠ [] := by
  cases text with
  | nil => exact absurd rfl nonempty
  | cons b bs =>
    rw [untilNewline]
    split <;> exact List.cons_ne_nil _ _

theorem untilNewline_eq (text : Bytes) :
    text.untilNewline = (text.take text.lineLength, text.drop text.lineLength) := by
  induction text with
  | nil => rfl
  | cons b bs ih =>
    rw [untilNewline, lineLength, List.findIdx?_cons]
    by_cases newline : b = Byte.newline
    · simp [newline]
    · rw [if_neg newline, ih, lineLength]
      simp only [newline, decide_false, Bool.false_eq_true, if_false]
      cases bs.findIdx? (· = Byte.newline) <;> rfl

/-- The lines of a text are read one after another. -/
theorem cut_eq {text : Bytes} (nonempty : text ≠ []) :
    cut text = text.untilNewline.1 :: cut text.untilNewline.2 := by
  induction text with
  | nil => exact absurd rfl nonempty
  | cons b bs ih =>
    rw [cut, untilNewline]
    by_cases newline : b = Byte.newline
    · rw [if_pos newline, if_pos newline, newline]
    · rw [if_neg newline, if_neg newline]
      cases bs with
      | nil => rfl
      | cons c cs => rw [ih (List.cons_ne_nil _ _)]

end Bytes

namespace Program

/-- A text that ends with a line feed, supplied if it has none there. -/
def ended (text : Bytes) : Bytes :=
  if text.getLast? = some Byte.newline then text else text ++ [Byte.newline]

/-- A program that is in the middle of a unit: a place, what is left of the unit behind it, and the
units that follow. -/
def within (place : Location) (rest : Bytes) (units : List SourceUnit) : Program :=
  let after := ofUnits ⟨place.unit, place.line + (cut rest).length⟩ units
  ⟨(cut rest).mapIdx (fun i bytes => ⟨⟨place.unit, place.line + i + 1⟩, bytes⟩) ++ after.lines,
    after.ending⟩

theorem ofUnits_cons_ok (place : Location) {u : SourceUnit} {text : Bytes}
    (body : u.body = .ok text) (units : List SourceUnit) :
    ofUnits place (u :: units) = within ⟨u.name, 0⟩ text units := by
  simp [ofUnits, body, within, linesOf]

theorem within_line (place : Location) {rest : Bytes} (nonempty : rest ≠ [])
    (units : List SourceUnit) :
    let line : Location := ⟨place.unit, place.line + 1⟩
    let after := within line rest.untilNewline.2 units
    within place rest units = ⟨⟨line, rest.untilNewline.1⟩ :: after.lines, after.ending⟩ := by
  simp only [within, Bytes.cut_eq nonempty, List.mapIdx_cons, List.length_cons, Nat.add_zero,
    List.cons_append]
  simp only [Nat.add_assoc, Nat.add_comm 1]

end Program

namespace Reader

/-- The program that lies ahead of a reader, behind the line that it holds. -/
def ahead (r : Reader) : Program :=
  match r.supply with
  | .text rest => .within r.location rest []
  | .units none waiting => .ofUnits r.location waiting
  | .units (some rest) waiting => .within r.location rest waiting

/-- What reading a line can come to. -/
inductive ReadsLine (r : Reader) : Except Failure (Bool × Reader) → Prop
  | line {t : Reader} (nonempty : t.line ≠ []) (last : t.last? = r.last?)
      (count : t.linesRead = r.linesRead)
      (ahead : r.ahead = ⟨⟨t.beginLine.location, t.line⟩ :: t.beginLine.ahead.lines,
        t.beginLine.ahead.ending⟩) : r.ReadsLine (.ok (true, t))
  | drained {t : Reader} (line : t.line = r.line ∨ t.line = []) (position : t.position = r.position)
      (last : t.last? = r.last?) (count : t.linesRead = r.linesRead)
      (ahead : r.ahead = ⟨[], .ok t.location⟩) (stays : t.ahead = ⟨[], .ok t.location⟩) :
      r.ReadsLine (.ok (false, t))
  | failed {failure : Failure} (ahead : r.ahead = ⟨[], .error failure⟩) :
      r.ReadsLine (.error failure)

variable {r s t : Reader} {result : Except Failure (Bool × Reader)}

theorem ReadsLine.of_emptied (reads : s.ReadsLine result) (ahead : r.ahead = s.ahead)
    (emptied : s.line = []) (position : s.position = r.position) (last : s.last? = r.last?)
    (count : s.linesRead = r.linesRead) : r.ReadsLine result := by
  cases reads with
  | line nonempty last' count' ahead' =>
    exact .line nonempty (last'.trans last) (count'.trans count) (ahead.trans ahead')
  | drained line position' last' count' ahead' stays =>
    have empty := line.elim (·.trans emptied) id
    exact .drained (.inr empty) (position'.trans position) (last'.trans last) (count'.trans count)
      (ahead.trans ahead') stays
  | failed ahead' => exact .failed (ahead.trans ahead')

theorem takeOpened_of_ne (r : Reader) {rest : Bytes} (nonempty : rest ≠ [])
    (waiting : List SourceUnit) : r.takeOpened rest waiting = some { r with
      supply := .units (some rest.untilNewline.2) waiting, line := rest.untilNewline.1 } := by
  have line := Bytes.untilNewline_ne_nil nonempty
  simp [takeOpened, line]

theorem openWaiting_reads (r : Reader) (waiting : List SourceUnit) :
    { r with supply := .units none waiting }.ReadsLine (r.openWaiting waiting) := by
  induction waiting generalizing r with
  | nil => exact .drained (.inl rfl) rfl rfl rfl rfl rfl
  | cons u us ih =>
    rw [openWaiting]
    cases body : u.body with
    | error failure =>
      refine .failed ?_
      simp [ahead, Program.ofUnits, body]
    | ok text =>
      have opened : { r with supply := .units none (u :: us) }.ahead =
          .within ⟨u.name, 0⟩ text us := Program.ofUnits_cons_ok r.location body us
      rcases eq_or_ne text [] with rfl | nonempty
      · exact (ih { r with location := ⟨u.name, 0⟩, line := [] }).of_emptied opened rfl rfl rfl rfl
      · simp only [takeOpened_of_ne _ nonempty]
        refine .line (Bytes.untilNewline_ne_nil nonempty) rfl rfl ?_
        rw [opened, Program.within_line _ nonempty]
        rfl

theorem readLine_reads (r : Reader) : r.ReadsLine r.readLine := by
  obtain ⟨supply, line, position, location, last?, linesRead⟩ := r
  match supply with
  | .text rest =>
    rcases eq_or_ne rest [] with rfl | nonempty
    · exact .drained (.inl rfl) rfl rfl rfl rfl rfl
    · simp only [readLine, List.isEmpty_iff, nonempty, if_false]
      obtain ⟨first, behind⟩ := Prod.mk.inj rest.untilNewline_eq
      rw [← first, ← behind]
      refine .line (Bytes.untilNewline_ne_nil nonempty) rfl rfl ?_
      exact Program.within_line location nonempty []
  | .units none waiting =>
    exact openWaiting_reads ⟨_, line, position, location, last?, linesRead⟩ waiting
  | .units (some rest) waiting =>
    rcases eq_or_ne rest [] with rfl | nonempty
    · exact (openWaiting_reads ⟨_, [], position, location, last?, linesRead⟩ waiting).of_emptied
        rfl rfl rfl rfl rfl
    · simp only [readLine, takeOpened_of_ne _ nonempty]
      refine .line (Bytes.untilNewline_ne_nil nonempty) rfl rfl ?_
      exact Program.within_line location nonempty waiting

end Reader

namespace Stream

/-- The glyphs of a line together with its carriage returns. -/
def marks (location : Location) (linesRead : ℕ) : Bool → Bytes → List Glyph
  | _, [] => []
  | joined, b :: bs => ⟨b, location, linesRead, joined⟩ ::
    marks location linesRead (b ≠ Byte.carriageReturn) bs

def lineMarks (linesRead : ℕ) : List Line → List Glyph
  | [] => []
  | l :: ls => marks l.location (linesRead + 1) false l.bytes ++ lineMarks (linesRead + 1) ls

/-- The line feed supplied behind a program, where `last?` is the last byte before it. -/
def suppliedAfter (last? : Option Byte) (linesRead : ℕ) (p : Program) : List Glyph :=
  match p.ending with
  | .error _ => []
  | .ok place =>
    if p.text.getLast?.or last? = some Byte.newline then []
    else [⟨Byte.newline, place, linesRead + p.lines.length, false⟩]

theorem suppliedAfter_of_ok {p : Program} {place : Location} (ending : p.ending = .ok place)
    (last? : Option Byte) (n : ℕ) : suppliedAfter last? n p =
      if p.text.getLast?.or last? = some Byte.newline then []
      else [⟨Byte.newline, place, n + p.lines.length, false⟩] := by
  rw [suppliedAfter, ending]

theorem ofBytes_eq (l : Location) (n : ℕ) (joined : Bool) (bs : Bytes) :
    ofBytes l n joined bs = (marks l n joined bs).filter (·.byte ≠ Byte.carriageReturn) := by
  induction bs generalizing joined with
  | nil => rfl
  | cons b bs ih =>
    rw [ofBytes, marks]
    by_cases cr : b = Byte.carriageReturn
    · simp [cr, ih]
    · simp [cr, ih]

theorem ofLines_eq (n : ℕ) (ls : List Line) :
    ofLines n ls = (lineMarks n ls).filter (·.byte ≠ Byte.carriageReturn) := by
  induction ls generalizing n with
  | nil => rfl
  | cons l ls ih => rw [ofLines, lineMarks, List.filter_append, ofBytes_eq, ih]

theorem supplied_eq (p : Program) :
    supplied p = (suppliedAfter none 0 p).filter (·.byte ≠ Byte.carriageReturn) := by
  have other : Byte.newline ≠ Byte.carriageReturn := by decide
  unfold supplied suppliedAfter
  cases p.ending with
  | error failure => rfl
  | ok place =>
    simp only [Option.or_none, Nat.zero_add]
    split
    · rfl
    · simp [other]

theorem marks_spot (l : Location) (n : ℕ) (joined : Bool) (bs : Bytes) :
    (marks l n joined bs).map Glyph.spot = bs.map (·, l) := by
  induction bs generalizing joined with
  | nil => rfl
  | cons b bs ih => rw [marks, List.map_cons, List.map_cons, ih, Glyph.spot]

theorem lineMarks_spot (n : ℕ) (ls : List Line) :
    (lineMarks n ls).map Glyph.spot = ls.flatMap Program.placedLine := by
  induction ls generalizing n with
  | nil => rfl
  | cons l ls ih =>
    rw [lineMarks, List.map_append, marks_spot, ih, List.flatMap_cons, Program.placedLine]

theorem lineMarks_byte (n : ℕ) (ls : List Line) :
    (lineMarks n ls).map Glyph.byte = ls.flatMap Line.bytes := by
  have spots := congrArg (List.map Prod.fst) (lineMarks_spot n ls)
  rw [List.map_map, List.map_flatMap] at spots
  simpa [Program.placedLine, Function.comp_def, Glyph.spot] using spots

theorem suppliedAfter_length_le (last? : Option Byte) (n : ℕ) (p : Program) :
    (suppliedAfter last? n p).length ≤ 1 := by
  unfold suppliedAfter
  split
  · exact Nat.zero_le _
  · split <;> simp

theorem suppliedAfter_cons (l : Line) (nonempty : l.bytes ≠ []) (ls : List Line)
    (ending : Except Failure Location) (last? : Option Byte) (n : ℕ) :
    suppliedAfter last? n ⟨l :: ls, ending⟩ =
      suppliedAfter l.bytes.getLast? (n + 1) ⟨ls, ending⟩ := by
  have at_last := List.getLast?_eq_some_getLast nonempty
  unfold suppliedAfter
  cases ending with
  | error failure => rfl
  | ok place =>
    simp only [Program.text, List.flatMap_cons, List.getLast?_append, Option.or_assoc, at_last,
      Option.some_or, List.length_cons, Nat.add_assoc, Nat.add_comm 1]

end Stream

namespace Reader

open AwkCore.Stream

variable {r s t : Reader}

/-- The bytes that a reader has still to give, each with its place. -/
def coming (r : Reader) : List Glyph :=
  marks r.location r.linesRead (joinedAt r.line r.position) (r.line.drop r.position) ++
    (lineMarks r.linesRead r.ahead.lines ++ suppliedAfter r.last? r.linesRead r.ahead)

theorem coming_of_none (used : r.line[r.position]? = none) :
    r.coming = lineMarks r.linesRead r.ahead.lines ++
      suppliedAfter r.last? r.linesRead r.ahead := by
  rw [coming, List.drop_eq_nil_of_le (List.getElem?_eq_none_iff.mp used)]
  rfl

theorem coming_of_some {b : Byte} (next : r.line[r.position]? = some b) :
    let t : Reader := { r with position := r.position + 1 }
    r.coming = t.glyph b :: t.coming := by
  intro t
  have rest : r.line.drop r.position = b :: r.line.drop (r.position + 1) := by
    obtain ⟨lt, rfl⟩ := List.getElem?_eq_some_iff.mp next
    exact List.drop_eq_getElem_cons lt
  have joined : joinedAt r.line (r.position + 1) = decide (b ≠ Byte.carriageReturn) := by
    rw [joinedAt, next]
    simp
  rw [coming, coming, rest, marks, ← joined]
  rfl

/-- What a refill can come to, when the line that is held is used up. -/
inductive Refills (r : Reader) : Except Failure (Bool × Reader) → Prop
  | more {t : Reader} (coming : t.coming = r.coming) (ending : t.ahead.ending = r.ahead.ending) :
      r.Refills (.ok (true, t))
  | finished {t : Reader} (last : r.coming = []) (place : r.ahead.ending = .ok t.location)
      (stays : t.coming = []) (ending : t.ahead.ending = .ok t.location) :
      r.Refills (.ok (false, t))
  | failed {failure : Failure} (last : r.coming = []) (cause : r.ahead.ending = .error failure) :
      r.Refills (.error failure)

theorem refill_refills (used : r.line[r.position]? = none) : r.Refills r.refill := by
  have coming := coming_of_none used
  have reads := r.readLine_reads
  unfold refill
  cases read : r.readLine with
  | error failure =>
    rw [read] at reads
    cases reads with
    | failed ahead =>
      refine .failed ?_ (by rw [ahead])
      rw [coming, ahead]
      rfl
  | ok result =>
    rw [read] at reads
    cases reads with
    | line nonempty last count ahead =>
      rename_i t
      refine .more ?_ (by rw [ahead])
      rw [coming, ahead, suppliedAfter_cons _ nonempty, lineMarks, ← count, List.append_assoc]
      rfl
    | drained line position last count ahead stays =>
      rename_i t
      rw [ahead] at coming
      simp only
      split
      case isTrue newline =>
        have empty : r.coming = [] := by
          simp [coming, lineMarks, suppliedAfter, Program.text, ← last, newline]
        have used' : t.line[t.position]? = none := by
          rcases line with same | emptied
          · rw [same, position, used]
          · rw [emptied]
            rfl
        refine .finished empty (by rw [ahead]) ?_ (by rw [stays])
        rw [coming_of_none used', stays, ← empty, coming, count, last]
      case isFalse open_end =>
        refine .more ?_ ?_
        · have behind : t.supplyNewline.ahead = ⟨[], .ok t.location⟩ := stays
          rw [Reader.coming, behind, coming]
          rw [last] at open_end
          simp [supplyNewline, lineMarks, suppliedAfter, marks, Program.text, open_end, joinedAt,
            count]
        · rw [ahead]
          exact congrArg Program.ending stays

/-- What a call answers when some glyph is next, or none is left before the end. -/
inductive Answers (next? : Option Glyph) (ending : Except Failure Location) :
    Except Failure (Option Byte × Reader) → Prop
  | byte {b : Byte} {t : Reader} (next : next? = some (t.glyph b)) :
      Answers next? ending (.ok (some b, t))
  | finished {t : Reader} (last : next? = none) (place : ending = .ok t.location) :
      Answers next? ending (.ok (none, t))
  | failed {failure : Failure} (last : next? = none) (cause : ending = .error failure) :
      Answers next? ending (.error failure)

theorem getChar_answers (r : Reader) :
    Answers r.coming.head? r.ahead.ending r.getChar ∧ ∀ {answer t}, r.getChar = .ok (answer, t) →
      t.coming = r.coming.tail ∧ t.ahead.ending = r.ahead.ending := by
  induction r using getChar.induct with
  | case1 r b next =>
    have call : r.getChar = .ok (some b, { r with position := r.position + 1 }) := by
      rw [getChar, next]
    have coming := coming_of_some next
    rw [call, coming]
    refine ⟨.byte rfl, fun ok => ?_⟩
    cases ok
    exact ⟨rfl, rfl⟩
  | case2 r used failure error =>
    have refills := refill_refills used
    have call : r.getChar = .error failure := by rw [getChar, used, error]
    rw [error] at refills
    cases refills with
    | failed last cause =>
      rw [call]
      exact ⟨.failed (by rw [last]; rfl) cause, nofun⟩
  | case3 r used t ok =>
    have refills := refill_refills used
    have call : r.getChar = .ok (none, t) := by rw [getChar, used, ok]
    rw [ok] at refills
    cases refills with
    | finished last place stays ending =>
      rw [call]
      refine ⟨.finished (by rw [last]; rfl) place, fun same => ?_⟩
      cases same
      exact ⟨by rw [stays, last]; rfl, by rw [ending, place]⟩
  | case4 r used t ok ih =>
    have refills := refill_refills used
    have call : r.getChar = t.getChar := by rw [getChar, used, ok]
    rw [ok] at refills
    cases refills with
    | more coming ending =>
      rw [call, ← coming, ← ending]
      exact ih

theorem callAfter_answers (r : Reader) (n : ℕ) :
    Answers r.coming[n]? r.ahead.ending (r.callAfter n) := by
  induction n generalizing r with
  | zero =>
    rw [callAfter, ← List.head?_eq_getElem?]
    exact r.getChar_answers.1
  | succ n ih =>
    obtain ⟨answers, stays⟩ := r.getChar_answers
    rw [callAfter, ← List.getElem?_tail]
    cases call : r.getChar with
    | error failure =>
      rw [call] at answers
      cases answers with
      | failed last cause =>
        rw [List.head?_eq_none_iff] at last
        exact .failed (by rw [last]; rfl) cause
    | ok result =>
      obtain ⟨coming, ending⟩ := stays call
      rw [← coming, ← ending]
      exact ih result.2

variable {next? : Option Glyph} {place : Location} {call : Except Failure (Option Byte × Reader)}

/-- An answer shows the byte of the glyph, and its place or that of the end. -/
theorem Answers.map_eq {α : Type} (f : Option Byte × Location → α)
    (answers : Answers next? (.ok place) call) :
    call.map (fun c => f (c.1, c.2.location)) =
      .ok (f (next?.map Glyph.byte, next?.elim place Glyph.location)) := by
  cases answers with
  | byte next =>
    rw [next]
    rfl
  | finished last at_place =>
    cases at_place
    rw [last]
    rfl
  | failed _ cause => cases cause

theorem Answers.seen {ending : Except Failure Location} (answers : Answers next? ending call) :
    call.toOption.bind seen = next?.filter (·.byte ≠ Byte.carriageReturn) := by
  cases answers with
  | @byte b t next =>
    rw [next]
    by_cases cr : b = Byte.carriageReturn <;>
      simp [Except.toOption, Reader.seen, Option.filter, glyph, cr]
  | finished last _ =>
    rw [last]
    rfl
  | failed last _ =>
    rw [last]
    rfl

/-- A reader that has read nothing of a program. -/
structure Fresh (r : Reader) (p : Program) : Prop where
  line : r.line = []
  last : r.last? = none
  count : r.linesRead = 0
  ahead : r.ahead = p

theorem ofUnits_fresh (units : List SourceUnit) :
    (ofUnits units).Fresh (Program.ofUnits ⟨"", 0⟩ units) :=
  ⟨rfl, rfl, rfl, rfl⟩

theorem inline_fresh (text : Bytes) : (inline text).Fresh (Program.inline text) :=
  ⟨rfl, rfl, rfl, (Program.ofUnits_cons_ok default (u := ⟨inlineName, .ok text⟩) rfl []).symm⟩

namespace Fresh

variable {p : Program}

theorem coming (fresh : r.Fresh p) : r.coming = lineMarks 0 p.lines ++ suppliedAfter none 0 p := by
  have used : r.line[r.position]? = none := by
    rw [fresh.line]
    rfl
  rw [coming_of_none used, fresh.last, fresh.count, fresh.ahead]

/-- All bytes of a program that can be read to its end come, and a line feed if they do not end with
one. -/
theorem bytes (fresh : r.Fresh p) (ending : p.ending = .ok place) :
    r.coming.map Glyph.byte = Program.ended p.text := by
  rw [fresh.coming, List.map_append, lineMarks_byte, ← Program.text, suppliedAfter_of_ok ending,
    Option.or_none, Program.ended]
  split
  · exact List.append_nil _
  · rfl

theorem callAfter (fresh : r.Fresh p) (ending : p.ending = .ok place) (n : ℕ) :
    (r.callAfter n).map Prod.fst = .ok (Program.ended p.text)[n]? := by
  have answers := r.callAfter_answers n
  rw [fresh.ahead, ending] at answers
  rw [← fresh.bytes ending, List.getElem?_map]
  exact answers.map_eq Prod.fst

theorem length_le (fresh : r.Fresh p) : r.coming.length ≤ p.text.length + 1 := by
  have lines := congrArg List.length (lineMarks_byte 0 p.lines)
  rw [List.length_map] at lines
  rw [fresh.coming, List.length_append, lines]
  exact Nat.add_le_add_left (suppliedAfter_length_le none 0 p) _

end Fresh

theorem filterMap_range {α : Type} {as : List α} {n : ℕ} (long : as.length ≤ n) :
    (List.range n).filterMap (as[·]?) = as := by
  induction as generalizing n with
  | nil => simp
  | cons a as ih =>
    obtain ⟨n, rfl⟩ := Nat.exists_eq_add_one_of_ne_zero (Nat.ne_zero_of_lt long)
    rw [List.range_succ_eq_map, List.filterMap_cons, List.filterMap_map]
    exact congrArg (a :: ·) (ih (Nat.le_of_succ_le_succ long))

/-- The glyphs of the first calls. -/
def glyphs (calls : ℕ) (r : Reader) : List Glyph :=
  (List.range calls).filterMap fun n => (r.callAfter n).toOption.bind seen

/-- The scanner sees what a reader gives, without the carriage returns. -/
theorem Fresh.glyphs {p : Program} (fresh : r.Fresh p) :
    (Stream.ofProgram p).glyphs = r.glyphs (p.text.length + 1) := by
  have seen (n : ℕ) : (r.callAfter n).toOption.bind seen =
      r.coming[n]?.filter (·.byte ≠ Byte.carriageReturn) := (r.callAfter_answers n).seen
  simp only [Reader.glyphs, seen]
  rw [Stream.ofProgram, ofLines_eq, supplied_eq, ← List.filter_append, ← fresh.coming,
    ← List.filter_filterMap, filterMap_range fresh.length_le]

/-- What an answer shows apart from the name of the unit. -/
def lineShown (answer : Option Byte × Reader) : Option Byte × ℕ :=
  (answer.1, answer.2.location.line)

/-- The bytes of a text that is read alone, with the numbers of their lines. -/
def alone (text : Bytes) : List (Byte × ℕ) :=
  Program.numbered 1 text ++
    if text.getLast? = some Byte.newline then [] else [(Byte.newline, (cut text).length)]

theorem Fresh.spots {start : Location} {files : List (String × Bytes)}
    (fresh : r.Fresh (Program.ofUnits start (files.map readable))) :
    r.coming.map Glyph.spot =
      (files.flatMap fun file => (Program.numbered 1 file.2).map fun c => (c.1, ⟨file.1, c.2⟩)) ++
        (suppliedAfter none 0 (Program.ofUnits start (files.map readable))).map Glyph.spot := by
  rw [fresh.coming, List.map_append, lineMarks_spot, (Program.ofUnits_readable start files).1,
    List.flatMap_assoc]
  simp only [Program.linesOf_numbered]

/-- A single text is numbered alike, whatever its name and however it is supplied. -/
theorem Fresh.lineShown {start : Location} {unit : String} {text : Bytes}
    (fresh : r.Fresh (Program.ofUnits start ([(unit, text)].map readable))) (n : ℕ) :
    (r.callAfter n).map lineShown =
      .ok ((alone text)[n]?.map Prod.fst, (alone text)[n]?.elim (cut text).length Prod.snd) := by
  have length : (linesOf unit text).length = (cut text).length := List.length_mapIdx
  have ending : r.ahead.ending = .ok ⟨unit, (cut text).length⟩ := by
    rw [fresh.ahead, ← length]
    rfl
  have coming : r.coming.map (fun g => (g.byte, g.location.line)) = alone text := by
    have spots := congrArg (List.map fun c => (c.1, c.2.line)) fresh.spots
    simp only [List.flatMap_singleton, List.map_append, List.map_map, Function.comp_def, Glyph.spot,
      List.map_id'] at spots
    have whole : (Program.ofUnits start ([(unit, text)].map readable)).text = text :=
      (Program.ofUnits_text start [(unit, text)]).trans (List.append_nil text)
    rw [← fresh.ahead] at whole spots
    rw [spots, alone, suppliedAfter_of_ok ending, whole, Option.or_none, apply_ite (List.map _)]
    rfl
  have answers := r.callAfter_answers n
  rw [ending] at answers
  rw [← coming, List.getElem?_map]
  refine (answers.map_eq fun c => (c.1, c.2.line)).trans ?_
  cases r.coming[n]? <;> rfl

/-- The bytes of a file stand on the lines that the line feeds before them in the file make. -/
theorem Fresh.located {start : Location} {before after : List (String × Bytes)} {name : String}
    {text rest : Bytes} {b : Byte}
    (fresh : r.Fresh
      (Program.ofUnits start ((before ++ (name, text ++ b :: rest) :: after).map readable))) :
    (r.callAfter ((before.flatMap Prod.snd).length + text.length)).map
        (fun c => (c.1, c.2.location)) = .ok (some b, ⟨name, 1 + text.count Byte.newline⟩) := by
  let n := (before.flatMap Prod.snd).length + text.length
  let places (file : String × Bytes) : List (Byte × Location) :=
    (Program.numbered 1 file.2).map fun c => (c.1, ⟨file.1, c.2⟩)
  obtain ⟨place, ending⟩ := (Program.ofUnits_readable start _).2
  have skipped : (before.flatMap places ++ places (name, text)).length = n := by
    simp [places, n, List.length_flatMap, Program.numbered_length]
  obtain ⟨behind, split⟩ : ∃ behind, r.coming.map Glyph.spot =
      (before.flatMap places ++ places (name, text)) ++
        (b, ⟨name, 1 + text.count Byte.newline⟩) :: behind := by
    rw [fresh.spots, List.flatMap_append, List.flatMap_cons, Program.numbered_append,
      Program.numbered]
    exact ⟨_, by simp [places, List.append_assoc]; rfl⟩
  have here : (r.coming.map Glyph.spot)[n]? = some (b, ⟨name, 1 + text.count Byte.newline⟩) := by
    rw [split, List.getElem?_append_right (Nat.le_of_eq skipped), skipped, Nat.sub_self]
    rfl
  have answers := r.callAfter_answers n
  rw [fresh.ahead, ending] at answers
  refine (answers.map_eq id).trans ?_
  rw [List.getElem?_map, Option.map_eq_some_iff] at here
  obtain ⟨g, next, spot⟩ := here
  rw [next]
  exact congrArg (fun c : Byte × Location => Except.ok (some c.1, c.2)) spot

/-- The calls of a reader give an inline text, or the contents of files in order, and then one line
feed unless these end with one, and then nothing. A file that is read alone gives what its content
gives inline, on lines of the same numbers. Among other files it has these numbers too: a byte
stands on the line that the line feeds before it in its file make. The scanner's glyphs are what
these calls give. -/
theorem callAfter_ended :
    (∀ text n, ((inline text).callAfter n).map Prod.fst = .ok (Program.ended text)[n]?) ∧
    (∀ (first : String × Bytes) others n,
      ((ofUnits ((first :: others).map readable)).callAfter n).map Prod.fst =
        .ok (Program.ended ((first :: others).flatMap Prod.snd))[n]?) ∧
    (∀ name text n, ((ofUnits [readable (name, text)]).callAfter n).map lineShown =
      ((inline text).callAfter n).map lineShown) ∧
    (∀ before name text b rest after,
      let line := 1 + text.count Byte.newline
      ((ofUnits ((before ++ (name, text ++ b :: rest) :: after).map readable)).callAfter
          ((before.flatMap Prod.snd).length + text.length)).map (fun c => (c.1, c.2.location)) =
        .ok (some b, ⟨name, line⟩) ∧
      ((inline (text ++ b :: rest)).callAfter text.length).map (fun c => (c.1, c.2.location)) =
        .ok (some b, ⟨inlineName, line⟩)) ∧
    (∀ text, (Stream.ofProgram (Program.inline text)).glyphs =
      (inline text).glyphs (text.length + 1)) ∧
    ∀ units, let p := Program.ofUnits ⟨"", 0⟩ units
      (Stream.ofProgram p).glyphs = (ofUnits units).glyphs (p.text.length + 1) := by
  have text_eq (text : Bytes) : (Program.inline text).text = text :=
    (Program.ofUnits_text _ [(inlineName, text)]).trans (List.append_nil text)
  refine ⟨fun text n => ?_, fun first others n => ?_, fun name text n => ?_,
    fun before name text b rest after => ⟨(ofUnits_fresh _).located, ?_⟩, fun text => ?_,
    fun units => (ofUnits_fresh units).glyphs⟩
  · have bytes := (inline_fresh text).callAfter rfl n
    rwa [text_eq] at bytes
  · obtain ⟨place, ending⟩ := (Program.ofUnits_readable ⟨"", 0⟩ (first :: others)).2
    rw [← Program.ofUnits_text ⟨"", 0⟩]
    exact (ofUnits_fresh _).callAfter ending n
  · have file := (ofUnits_fresh ([(name, text)].map readable)).lineShown n
    exact file.trans ((inline_fresh text).lineShown n).symm
  · let files : List (String × Bytes) := [] ++ (inlineName, text ++ b :: rest) :: []
    have fresh : (inline (text ++ b :: rest)).Fresh (Program.ofUnits _ (files.map readable)) :=
      inline_fresh _
    have alone := fresh.located
    rwa [List.flatMap_nil, List.length_nil, Nat.zero_add] at alone
  · rw [(inline_fresh text).glyphs, text_eq]

end Reader

end AwkCore
