import AwkCore.Proofs.Program.Faces

/-!
# Places

The place of a glyph comes from the text of its unit alone: its line is the first one, moved down by
each line feed before it. A line feed that is supplied stands where one at the end of the text would.
-/
namespace AwkCore

/-- What a glyph shows together with its place. -/
def Glyph.spot (g : Glyph) : Byte × Location := (g.byte, g.location)

namespace Program

/-- The bytes of a text with the numbers of their lines, where the first line has some number. -/
def numbered : (line : ℕ) → Bytes → List (Byte × ℕ)
  | _, [] => []
  | line, b :: bs => (b, line) :: numbered (if b = Byte.newline then line + 1 else line) bs

/-- The spots of a text whose first line has some number. -/
def spots (unit : String) : (line : ℕ) → Bytes → List (Byte × Location)
  | _, [] => []
  | line, b :: bs =>
    if b = Byte.carriageReturn then spots unit line bs
    else (b, ⟨unit, line⟩) :: spots unit (if b = Byte.newline then line + 1 else line) bs

/-- The bytes of a line, which are all in one place. -/
def placedLine (l : Line) : List (Byte × Location) := l.bytes.map (·, l.location)

/-- The spots of a line, which are all in one place. -/
def lineSpots (l : Line) : List (Byte × Location) :=
  (l.bytes.filter (· ≠ Byte.carriageReturn)).map (·, l.location)

variable {unit : String} {line : ℕ} {text : Bytes}

theorem numbered_append (line : ℕ) (s t : Bytes) :
    numbered line (s ++ t) = numbered line s ++ numbered (line + s.count Byte.newline) t := by
  induction s generalizing line with
  | nil => rfl
  | cons b bs ih =>
    rw [List.cons_append, numbered, numbered, ih, List.cons_append]
    by_cases newline : b = Byte.newline
    · rw [if_pos newline, newline, List.count_cons_self, Nat.add_right_comm, Nat.add_assoc]
    · rw [if_neg newline, List.count_cons_of_ne newline]

theorem numbered_length (line : ℕ) (text : Bytes) : (numbered line text).length = text.length := by
  induction text generalizing line with
  | nil => rfl
  | cons b bs ih => rw [numbered, List.length_cons, List.length_cons, ih]

theorem spots_eq (unit : String) (line : ℕ) (text : Bytes) :
    spots unit line text =
      ((numbered line text).map fun c => (c.1, (⟨unit, c.2⟩ : Location))).filter
        (·.1 ≠ Byte.carriageReturn) := by
  induction text generalizing line with
  | nil => rfl
  | cons b bs ih =>
    rw [spots, numbered, List.map_cons]
    by_cases cr : b = Byte.carriageReturn
    · have other : Byte.carriageReturn ≠ Byte.newline := by decide
      simp [cr, other, ih]
    · simp [cr, ih]

theorem spots_append (unit : String) (line : ℕ) (s t : Bytes) :
    spots unit line (s ++ t) =
      spots unit line s ++ spots unit (line + s.count Byte.newline) t := by
  simp only [spots_eq, numbered_append, List.map_append, List.filter_append]

/-- A text on one line, without a carriage return. -/
theorem spots_inner (inner : ∀ b ∈ text, b ≠ Byte.newline ∧ b ≠ Byte.carriageReturn) :
    spots unit line text = text.map (·, ⟨unit, line⟩) := by
  induction text with
  | nil => rfl
  | cons b bs ih =>
    obtain ⟨⟨newline, cr⟩, rest⟩ := List.forall_mem_cons.mp inner
    rw [spots, if_neg cr, if_neg newline, ih rest, List.map_cons]

theorem ofBytes_spots (l : Location) (n : ℕ) (joined : Bool) (bs : Bytes) :
    (Stream.ofBytes l n joined bs).map Glyph.spot = lineSpots ⟨l, bs⟩ := by
  induction bs generalizing joined with
  | nil => rfl
  | cons b bs ih =>
    rw [Stream.ofBytes]
    by_cases cr : b = Byte.carriageReturn
    · rw [if_pos cr, ih]
      simp [lineSpots, cr]
    · rw [if_neg cr, List.map_cons, ih]
      simp [lineSpots, cr, Glyph.spot]

theorem ofLines_spots (n : ℕ) (ls : List Line) :
    (Stream.ofLines n ls).map Glyph.spot = ls.flatMap lineSpots := by
  induction ls generalizing n with
  | nil => rfl
  | cons l ls ih => rw [Stream.ofLines, List.map_append, ofBytes_spots, ih, List.flatMap_cons]

/-- The lines that a text is cut into are numbered one after another. -/
theorem cut_numbered (unit : String) (line : ℕ) (text : Bytes) :
    ((cut text).mapIdx fun i bytes => (⟨⟨unit, i + line⟩, bytes⟩ : Line)).flatMap placedLine =
      (numbered line text).map fun c => (c.1, ⟨unit, c.2⟩) := by
  induction text generalizing line with
  | nil => rfl
  | cons b bs ih =>
    have below : ((cut bs).mapIdx fun i bytes => (⟨⟨unit, i + 1 + line⟩, bytes⟩ : Line)).flatMap
        placedLine = (numbered (line + 1) bs).map fun c => (c.1, ⟨unit, c.2⟩) := by
      simpa only [Nat.add_assoc, Nat.add_comm line] using ih (line + 1)
    rw [cut, numbered]
    by_cases newline : b = Byte.newline
    · rw [if_pos newline, if_pos newline, List.mapIdx_cons, List.flatMap_cons, below, newline]
      simp [placedLine]
    · rw [if_neg newline, if_neg newline, List.map_cons, ← ih line]
      cases cut bs with
      | nil => simp [placedLine]
      | cons l ls => simp [placedLine]

/-- The lines that a text is cut into have its spots. -/
theorem cut_spots (unit : String) (line : ℕ) (text : Bytes) :
    ((cut text).mapIdx fun i bytes => (⟨⟨unit, i + line⟩, bytes⟩ : Line)).flatMap lineSpots =
      spots unit line text := by
  have filtered : lineSpots = fun l => (placedLine l).filter (·.1 ≠ Byte.carriageReturn) := by
    funext l
    rw [lineSpots, placedLine, List.filter_map]
    rfl
  rw [spots_eq, ← cut_numbered, List.filter_flatMap, filtered]

theorem linesOf_numbered (unit : String) (text : Bytes) :
    (linesOf unit text).flatMap placedLine = (numbered 1 text).map fun c => (c.1, ⟨unit, c.2⟩) :=
  cut_numbered unit 1 text

theorem linesOf_spots (unit : String) (text : Bytes) :
    (linesOf unit text).flatMap lineSpots = spots unit 1 text :=
  cut_spots unit 1 text

/-- The spots of a program: those of its units one after another, and of its end. -/
theorem ofUnits_spots (start : Location) (files : List (String × Bytes)) :
    (Stream.ofProgram (ofUnits start (files.map readable))).glyphs.map Glyph.spot =
      files.flatMap (fun file => spots file.1 1 file.2) ++
        (Stream.supplied (ofUnits start (files.map readable))).map Glyph.spot := by
  rw [Stream.ofProgram, List.map_append, ofLines_spots, (ofUnits_readable start files).1,
    List.flatMap_assoc]
  simp only [linesOf_spots]

/-- A text has as many lines as line feeds, and one more unless it ends with one. -/
theorem cut_length {last : Byte} (at_last : text.getLast? = some last) : (cut text).length =
    text.count Byte.newline + if last = Byte.newline then 0 else 1 := by
  induction text with
  | nil => cases at_last
  | cons b bs ih =>
    rw [cut]
    rcases List.eq_nil_or_concat' bs with rfl | ⟨before, c, rfl⟩
    · obtain rfl : b = last := by simpa using at_last
      by_cases newline : b = Byte.newline <;> simp [cut, newline]
    · have later := ih (by simpa [List.getLast?_cons] using at_last)
      by_cases newline : b = Byte.newline
      · rw [if_pos newline, List.length_cons, later, newline, List.count_cons_self,
          Nat.add_right_comm]
      · rw [if_neg newline, List.count_cons_of_ne newline, ← later]
        cases lines : cut (before ++ [c]) with
        | nil => exact absurd lines (cut_ne_nil (by simp))
        | cons l ls => rfl

/-- The spots of a program that is one text: a line feed at its end is supplied. -/
theorem unit_spots (start : Location) (unit : String) {last : Byte} (at_last : text.getLast? = some last)
    (inner : last ≠ Byte.newline) :
    let stream := Stream.ofProgram (ofUnits start [⟨unit, .ok text⟩])
    stream.glyphs.map Glyph.spot = spots unit 1 (text ++ [Byte.newline]) ∧
      stream.finish = ⟨unit, 1 + text.count Byte.newline⟩ := by
  have finish : (⟨unit, (linesOf unit text).length⟩ : Location) =
      ⟨unit, 1 + text.count Byte.newline⟩ := by
    rw [linesOf, List.length_mapIdx, cut_length at_last, if_neg inner, Nat.add_comm]
  refine ⟨?_, finish⟩
  let p := ofUnits start [⟨unit, .ok text⟩]
  have open_end : p.text.getLast? ≠ some Byte.newline := by
    have whole : p.text = text := (ofUnits_text start [(unit, text)]).trans (List.append_nil _)
    rw [whole, at_last]
    exact fun same => inner (Option.some.inj same)
  have supplied : Stream.supplied p =
      [⟨Byte.newline, ⟨unit, 1 + text.count Byte.newline⟩, p.lines.length, false⟩] := by
    rw [← finish]
    exact if_neg open_end
  have shown := ofUnits_spots start [(unit, text)]
  rw [List.flatMap_singleton] at shown
  rw [spots_append]
  exact shown.trans (congrArg (_ ++ List.map Glyph.spot ·) supplied)

end Program

end AwkCore
