import Mathlib.Logic.Relation
import AwkCore.Proofs.Program.Places
import AwkCore.Proofs.Scanner.Starts

/-!
# Positions in the source

The place of a byte names its unit and counts the line feeds before it there. However far the calls of
a scan have come, the next token has the place of the first byte behind the gap before it, and so has
a complaint about it.
-/
namespace AwkCore

/-- A byte of a program with its place. -/
abbrev Spot := Byte × Location

/-- Some calls of a scan, one after another, lead from a scanner to another one. -/
abbrev Scanner.Leads : Scanner → Scanner → Prop :=
  Relation.ReflTransGen fun s t => s.next.outcome = .ok t

namespace Program

/-- The bytes of a text with their places: the line of a byte is one more than the number of line
feeds before it. -/
def places (unit : String) (text : Bytes) : List Spot :=
  text.mapIdx fun i b => (b, ⟨unit, 1 + (text.take i).count Byte.newline⟩)

/-- Carriage returns are not seen. -/
def seen (spots : List Spot) : List Spot := spots.filter (·.1 ≠ Byte.carriageReturn)

def seenBytes (spots : List Spot) : Bytes := (seen spots).map Prod.fst

/-- A lexeme that starts at a byte of the source, behind a gap. -/
structure Begins (left : List Spot) (first : Spot) (more : List Spot) : Prop where
  behind : ∃ gap, left = gap ++ first :: more ∧ (seenBytes gap).IsGap
  visible : first.1 ≠ Byte.carriageReturn
  no_gap : (seenBytes (first :: more)).NoGap

variable {unit : String} {line : ℕ} {text : Bytes} {first : Spot} {left more : List Spot}
  {gs tail rest : List Glyph} {g : Glyph} {p : Program}

theorem seen_append (as bs : List Spot) : seen (as ++ bs) = seen as ++ seen bs :=
  List.filter_append _ _

theorem seen_cons (visible : first.1 ≠ Byte.carriageReturn) (more : List Spot) :
    seen (first :: more) = first :: seen more :=
  List.filter_cons_of_pos (by simpa using visible)

theorem numbered_places :
    (numbered line text).map (fun c => (c.1, (⟨unit, c.2⟩ : Location))) =
      text.mapIdx fun i b => (b, ⟨unit, line + (text.take i).count Byte.newline⟩) := by
  induction text generalizing line with
  | nil => rfl
  | cons b bs ih =>
    rw [numbered, List.map_cons, ih, List.mapIdx_cons]
    by_cases newline : b = Byte.newline
    · simp [newline, Nat.add_assoc, Nat.add_comm 1]
    · simp [newline]

theorem spots_eq_seen : spots unit line text = seen (text.mapIdx fun i b =>
    (b, ⟨unit, line + (text.take i).count Byte.newline⟩)) := by
  rw [spots_eq, numbered_places, seen]

/-- What is supplied is a single line feed, if anything. -/
theorem mem_supplied : ∀ x ∈ (Stream.supplied p).map Glyph.spot,
    (Stream.supplied p).map Glyph.spot = [x] ∧ x.1 = Byte.newline := by
  unfold Stream.supplied
  intro x mem
  split at mem
  · contradiction
  split at mem
  · contradiction
  · rename_i place _ _
    obtain rfl := List.mem_singleton.mp mem
    simp_all [Glyph.spot]

theorem seen_supplied :
    seen ((Stream.supplied p).map Glyph.spot) = (Stream.supplied p).map Glyph.spot := by
  have other : Byte.newline ≠ Byte.carriageReturn := by decide
  refine List.filter_eq_self.mpr fun x mem => ?_
  rw [(mem_supplied x mem).2]
  simpa using other

/-- A scan starts before all bytes of its units, and before the line feed that is supplied. -/
theorem ofUnits_seen (start : Location) (files : List (String × Bytes)) :
    let p := ofUnits start (files.map readable)
    (Stream.ofProgram p).glyphs.map Glyph.spot =
      seen (files.flatMap (fun file => places file.1 file.2) ++
        (Stream.supplied p).map Glyph.spot) := by
  intro p
  rw [seen_append, seen_supplied, ofUnits_spots]
  simp only [spots_eq_seen, seen, List.filter_flatMap]
  rfl

/-- Part of what is seen is what is seen of a part. -/
theorem seen_suffix (suffix : rest <:+ tail) (at_tail : tail.map Glyph.spot = seen more) :
    ∃ after, after <:+ more ∧ rest.map Glyph.spot = seen after := by
  obtain ⟨used, rfl⟩ := suffix
  rw [List.map_append] at at_tail
  obtain ⟨before, after, rfl, _, at_after⟩ := List.filter_eq_append_iff.mp at_tail.symm
  exact ⟨after, List.suffix_append before after, at_after.symm⟩

/-- Glyphs that are left of the source start where a lexeme begins in it. -/
theorem begins_of_starts (starts : Scanner.Starts gs g tail) (at_left : gs.map Glyph.spot = seen left) :
    ∃ more, Begins left g.spot more ∧ tail.map Glyph.spot = seen more := by
  obtain ⟨gap, rfl, is_gap⟩ := starts.behind
  rw [List.map_append, List.map_cons] at at_left
  obtain ⟨before, here, rfl, at_before, at_here⟩ := List.filter_eq_append_iff.mp at_left.symm
  obtain ⟨returns, more, rfl, hidden, visible, at_more⟩ := List.filter_eq_cons_iff.mp at_here
  have bytes (gs : List Glyph) : (gs.map Glyph.spot).map Prod.fst = Scanner.bytesOf gs := by
    rw [List.map_map]
    rfl
  have visible : g.spot.1 ≠ Byte.carriageReturn := by simpa using visible
  refine ⟨more, ⟨⟨before ++ returns, by simp, ?_⟩, visible, ?_⟩, at_more.symm⟩
  · have none : seen returns = [] := List.filter_eq_nil_iff.mpr hidden
    rw [seenBytes, seen_append, none, List.append_nil, seen, at_before, bytes]
    exact is_gap
  · rw [seenBytes, seen_cons visible, seen, at_more, List.map_cons, bytes]
    exact starts.no_gap

end Program

namespace Scanner

open Program (places seen Begins readable)

/-- A scanner that has come to some bytes of the source. -/
def IsBefore (s : Scanner) (left : List Spot) : Prop := s.stream.glyphs.map Glyph.spot = seen left

variable {s t : Scanner} {left : List Spot}

/-- A call that gives a token uses the byte at which it begins. -/
theorem IsBefore.next (before : s.IsBefore left) (ok : s.next.outcome = .ok t)
    (not_end : t.current.kind ≠ .endOfInput) : ∃ first more after, Begins left first more ∧
      t.current.location = first.2 ∧ (first.1 = Byte.newline → t.current.kind = .newline) ∧
      after <:+ more ∧ t.IsBefore after := by
  obtain ⟨token, stream, _⟩ := of_next_ok ok
  obtain ⟨g, tail, starts, place, newline, suffix⟩ := readToken_starts token not_end
  obtain ⟨more, begins, at_more⟩ := Program.begins_of_starts starts before
  obtain ⟨after, later, at_after⟩ := Program.seen_suffix suffix at_more
  refine ⟨g.spot, more, after, begins, place, newline, later, ?_⟩
  rw [IsBefore, stream]
  exact at_after

theorem IsBefore.complaint (before : s.IsBefore left) (readable : s.Readable) {failure : Failure}
    (error : s.next.outcome = .error failure) : ∃ first more message, Begins left first more ∧
      first.1 ≠ Byte.newline ∧ failure = .lexical first.2 message := by
  obtain ⟨g, tail, message, starts, rfl, inner⟩ :=
    readToken_complains (readable.of_next_error error)
  obtain ⟨more, begins, _⟩ := Program.begins_of_starts starts before
  exact ⟨g.spot, more, message, begins, inner, rfl⟩

/-- Calls leave a scanner before part of what was left. -/
theorem IsBefore.leads (before : s.IsBefore left) (readable : s.Readable) (leads : s.Leads t) :
    t.Readable ∧ ∃ after, after <:+ left ∧ t.IsBefore after := by
  induction leads with
  | refl => exact ⟨readable, left, List.suffix_refl _, before⟩
  | @tail t u _ ok ih =>
    obtain ⟨t_readable, at_t, suffix, t_before⟩ := ih
    obtain ⟨token, stream, _⟩ := of_next_ok ok
    refine ⟨by rwa [Readable, stream], ?_⟩
    by_cases ends : u.current.kind = .endOfInput
    · obtain ⟨l, at_end⟩ := readToken_end token ends
      refine ⟨[], List.nil_suffix, ?_⟩
      rw [IsBefore, stream, step, at_end]
      rfl
    · obtain ⟨first, more, after, begins, _, _, later, u_before⟩ := t_before.next ok ends
      obtain ⟨gap, split, _⟩ := begins.behind
      refine ⟨after, later.trans (List.IsSuffix.trans ?_ suffix), u_before⟩
      exact ⟨gap ++ [first], by simp [split]⟩

end Scanner

namespace Program

open Scanner (ofProgram Leads)

/-- A byte that is left is one of the source, or it is the line feed that is supplied. -/
theorem mem_source {source : List Spot} (begins : Begins left first more)
    (suffix : left <:+ source ++ (Stream.supplied p).map Glyph.spot) :
    first ∈ source ∨
      ((Stream.supplied p).map Glyph.spot = [first] ∧ first.1 = Byte.newline ∧ more = []) := by
  obtain ⟨gap, rfl, _⟩ := begins.behind
  obtain ⟨before, split⟩ := suffix
  rw [← List.append_assoc] at split
  -- What is supplied is behind the source: unless `first` is of the source, it starts at `first` or later.
  have last (c : List Spot) (at_last : (Stream.supplied p).map Glyph.spot = c ++ first :: more) :
      (Stream.supplied p).map Glyph.spot = [first] ∧ first.1 = Byte.newline ∧ more = [] := by
    have mem : first ∈ (Stream.supplied p).map Glyph.spot := by
      rw [at_last]
      exact List.mem_append_right _ List.mem_cons_self
    obtain ⟨single, newline⟩ := mem_supplied first mem
    have short := congrArg List.length (at_last.symm.trans single)
    simp only [List.length_append, List.length_cons, List.length_nil] at short
    exact ⟨single, newline, List.length_eq_zero_iff.mp (by omega)⟩
  rcases List.append_eq_append_iff.mp split with ⟨between, source_eq, here⟩ | ⟨c, _, here⟩
  · cases between with
    | nil => exact .inr (last [] here.symm)
    | cons x xs =>
      obtain ⟨rfl, _⟩ := List.cons.inj here
      exact .inl (by simp [source_eq])
  · exact .inr (last c here)

/-- However far the calls of a scan have come, a scanner is before some rest of the source. A token other
than the end of input has the place of the byte at which it begins, behind the gap before it. That is a
byte of the source, or the line feed that is supplied. A call that fails complains about the place of the
byte of the source at which its lexeme begins. -/
theorem next_positions (start : Location) (files : List (String × Bytes)) :
    let p := ofUnits start (files.map readable)
    let source := files.flatMap fun file => places file.1 file.2
    let supplied := (Stream.supplied p).map Glyph.spot
    ∀ s, (ofProgram p).Leads s → ∃ left, left <:+ source ++ supplied ∧ s.IsBefore left ∧
      (∀ t, s.next.outcome = .ok t → t.current.kind ≠ .endOfInput →
        ∃ first more after, Begins left first more ∧ t.current.location = first.2 ∧
          (first ∈ source ∨ (supplied = [first] ∧ t.current.kind = .newline ∧ more = [])) ∧
          after <:+ more ∧ t.IsBefore after) ∧
      ∀ failure, s.next.outcome = .error failure →
        ∃ first more message, Begins left first more ∧ first ∈ source ∧
          failure = .lexical first.2 message := by
  intro p source supplied s leads
  obtain ⟨_, place, ending⟩ := ofUnits_readable start files
  have at_start : (ofProgram p).IsBefore (source ++ supplied) := ofUnits_seen start files
  obtain ⟨readable, left, suffix, before⟩ := at_start.leads ⟨place, ending⟩ leads
  refine ⟨left, suffix, before, fun t ok not_end => ?_, fun failure error => ?_⟩
  · obtain ⟨first, more, after, begins, at_first, newline, later⟩ := before.next ok not_end
    refine ⟨first, more, after, begins, at_first, ?_, later⟩
    rcases mem_source begins suffix with real | ⟨single, is_newline, none⟩
    · exact .inl real
    · exact .inr ⟨single, newline is_newline, none⟩
  · obtain ⟨first, more, message, begins, inner, lexical⟩ := before.complaint readable error
    refine ⟨first, more, message, begins, ?_, lexical⟩
    rcases mem_source begins suffix with real | ⟨_, is_newline, _⟩
    · exact real
    · exact absurd is_newline inner

/-- A line is continued in another file, where a comment ends with its line and a string is left open on
the next one. -/
theorem next_positions_continued :
    let files := [("a.awk", ascii "x \\"), ("b.awk", []), ("c.awk", ascii "\n# c\n \"u\\\nv")]
    let source := files.flatMap fun file => places file.1 file.2
    let open_string : Failure := .lexical ⟨"c.awk", 3⟩ "unterminated string"
    ∃ t u, (ofProgram (ofUnits ⟨"", 0⟩ (files.map readable))).next.outcome = .ok t ∧
      t.current.location = ⟨"a.awk", 1⟩ ∧ t.next.outcome = .ok u ∧
      u.current.kind = .newline ∧ u.current.location = ⟨"c.awk", 2⟩ ∧
      u.next.outcome = .error open_string ∧ ∃ left first more message, u.IsBefore left ∧
        Begins left first more ∧ first ∈ source ∧ open_string = .lexical first.2 message := by
  intro files source open_string
  obtain ⟨t, u, first, at_t, second, newline, at_u, error⟩ : ∃ t u,
      (ofProgram (ofUnits ⟨"", 0⟩ (files.map readable))).next.outcome = .ok t ∧
      t.current.location = ⟨"a.awk", 1⟩ ∧ t.next.outcome = .ok u ∧
      u.current.kind = .newline ∧ u.current.location = ⟨"c.awk", 2⟩ ∧
      u.next.outcome = .error open_string := ⟨_, _, rfl, rfl, rfl, rfl, rfl, rfl⟩
  obtain ⟨left, _, before, _, complains⟩ :=
    next_positions ⟨"", 0⟩ files u (.tail (.single first) second)
  obtain ⟨byte, more, message, begins, real, lexical⟩ := complains open_string error
  exact ⟨t, u, first, at_t, second, newline, at_u, error, left, byte, more, message, before, begins,
    real, lexical⟩

end Program

end AwkCore
