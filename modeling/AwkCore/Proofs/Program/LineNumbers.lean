import AwkCore.Proofs.Program.CarriageReturns
import AwkCore.Proofs.Program.Ending
import AwkCore.Proofs.Program.Numbers
import AwkCore.Proofs.Scanner.Lines

/-!
# Line numbers

The lines of a unit are counted from one, but a unit without a line has no first one: the place where it
ends is line zero. That is the place of the line feed and of the end of input when such a unit comes last,
and no other token stands there.
-/
namespace AwkCore

namespace Scanner

variable {s t : Scanner}

/-- Calls do not move the end of the program. -/
theorem Leads.ending_eq (leads : s.Leads t) : t.stream.ending = s.stream.ending := by
  induction leads with
  | refl => rfl
  | tail _ ok ih => rw [(of_next_ok ok).2.1, ← ih]

/-- Where the program ends with a line, the end of input has the place of its end. -/
theorem next_end_place {place : Location} (ends : EndsLine s.stream.glyphs)
    (ending : s.stream.ending = .ok place) (ok : s.next.outcome = .ok t)
    (at_end : t.current.kind = .endOfInput) : t.current.location = place := by
  obtain ⟨token, _, _⟩ := of_next_ok ok
  have spacing := ends.skipSpacing_eq token at_end
  rw [step, readToken_eq spacing, Stream.finish, ending] at token
  exact (readLexeme_at _ _ _).token _ token

/-- Calls lead to the end of input when nothing fails. -/
theorem leads_to_end (ok : s.reading.failure = none) : ∃ t u, s.Leads t ∧ t.next.outcome = .ok u ∧
    u.current.kind = .endOfInput := by
  induction s using advances.induct with
  | case1 s failure error => simp [reading_error error] at ok
  | case2 s t next ends => exact ⟨s, t, .refl, next, ends⟩
  | case3 s t next more ih =>
    obtain ⟨u, v, leads, last, ends⟩ := ih (by simpa [reading_more next more, Reading.after] using ok)
    exact ⟨u, v, .head next leads, last, ends⟩

/-- Calls before a scan that does not fail are calls of one that does not fail. -/
theorem Leads.failure_eq_none (leads : s.Leads t) (ok : t.reading.failure = none) :
    s.reading.failure = none := by
  induction leads using Relation.ReflTransGen.head_induction_on with
  | refl => exact ok
  | @head s u next _ ih =>
    by_cases ends : u.current.kind = .endOfInput
    · rw [reading_last next ends]
    · rw [reading_more next ends]
      exact ih

theorem AtEnd.failure_eq_none (at_end : s.AtEnd) : s.reading.failure = none := by
  obtain ⟨t, ok, token, _⟩ := at_end.next
  rw [reading_last ok (by rw [token]; rfl)]

end Scanner

namespace Program

open Scanner (ofProgram EndsLine)

variable {p : Program} {s t : Scanner}

/-- The program of some files and one file more behind them. -/
def ofFilesTo (start : Location) (files : List (String × Bytes)) (last : String × Bytes) : Program :=
  ofUnits start ((files ++ [last]).map readable)

theorem glyphs_bytes (p : Program) : Scanner.bytesOf (Stream.ofProgram p).glyphs =
    stripped (p.text ++ (Stream.supplied p).map Glyph.byte) := by
  have shown := congrArg (List.map Prod.fst) (source_displays p).seen
  rw [List.map_map] at shown
  rw [← source_bytes, stripped, List.filter_map]
  exact shown

/-- A program that can be read to its end ends a line. -/
theorem endsLine_of_readable {place : Location} (ending : p.ending = .ok place) :
    EndsLine (Stream.ofProgram p).glyphs := by
  have whole : (p.text ++ (Stream.supplied p).map Glyph.byte).getLast? = some Byte.newline := by
    rw [Stream.supplied, ending]
    by_cases newline : p.text.getLast? = some Byte.newline <;> simp [newline]
  intro g last
  have shown := getLast?_stripped whole (by decide)
  rw [← glyphs_bytes, Scanner.bytesOf, List.getLast?_map, last] at shown
  exact Option.some.inj shown

theorem ofFilesTo_ending (start : Location) (files : List (String × Bytes)) (last : String × Bytes) :
    (ofFilesTo start files last).ending = .ok ⟨last.1, (linesOf last.1 last.2).length⟩ := by
  induction files generalizing start with
  | nil => rfl
  | cons file files ih => exact ih ⟨file.1, (linesOf file.1 file.2).length⟩

theorem supplied_place {place : Location} (ending : p.ending = .ok place) {x : Spot}
    (single : (Stream.supplied p).map Glyph.spot = [x]) : x.2 = place := by
  rw [Stream.supplied, ending] at single
  dsimp only at single
  split at single
  · cases single
  · rw [← List.singleton_inj.mp single]
    rfl

theorem line_pos_of_mem_places {unit : String} {text : Bytes} {x : Spot}
    (mem : x ∈ places unit text) : 1 ≤ x.2.line := by
  obtain ⟨i, b, _, rfl⟩ := List.mem_mapIdx.mp mem
  exact Nat.le_add_right 1 _

/-- The end of input has the place where the program ends. -/
theorem end_place {place : Location} (ending : p.ending = .ok place) (leads : (ofProgram p).Leads s)
    (ok : s.next.outcome = .ok t) (at_end : t.current.kind = .endOfInput) :
    t.current.location = place := by
  have ends := (endsLine_of_readable ending).suffix (Scanner.Leads.suffix leads)
  exact Scanner.next_end_place ends (leads.ending_eq.trans ending) ok at_end

/-- A token stands on a line of its unit, or at the end of the program, where nothing is left behind it. -/
theorem next_line {start place : Location} {files : List (String × Bytes)}
    (ending : (ofUnits start (files.map readable)).ending = .ok place)
    (leads : (ofProgram (ofUnits start (files.map readable))).Leads s)
    (ok : s.next.outcome = .ok t) : 1 ≤ t.current.location.line ∨
      (t.current.location = place ∧ (t.current.kind = .newline ∨ t.current.kind = .endOfInput) ∧
        t.AtEnd) := by
  have at_start := ofUnits_seen start files
  obtain ⟨readable, left, suffix, before⟩ :=
    Scanner.IsBefore.leads (s := ofProgram _) at_start ⟨place, ending⟩ leads
  by_cases at_end : t.current.kind = .endOfInput
  · exact .inr ⟨end_place ending leads ok at_end, .inr at_end, .of_next ok at_end⟩
  · obtain ⟨first, more, after, begins, place_eq, newline, later, behind⟩ := before.next ok at_end
    rw [place_eq]
    rcases mem_source begins suffix with real | ⟨single, is_newline, none⟩
    · obtain ⟨file, _, mem⟩ := List.mem_flatMap.mp real
      exact .inl (line_pos_of_mem_places mem)
    · refine .inr ⟨supplied_place ending single, .inl (newline is_newline), ?_, ?_⟩
      · rwa [Scanner.Readable, (Scanner.of_next_ok ok).2.1]
      · rw [none, List.suffix_nil] at later
        rw [later] at behind
        exact List.map_eq_nil_iff.mp behind

theorem linesOf_length_eq_zero {unit : String} {text : Bytes} :
    (linesOf unit text).length = 0 ↔ text = [] := by
  rw [linesOf, List.length_mapIdx, List.length_eq_zero_iff]
  constructor
  · intro none
    by_contra nonempty
    exact cut_ne_nil nonempty none
  · rintro rfl
    rfl

variable {start : Location} {files : List (String × Bytes)} {last : String × Bytes}

/-- Line zero is the end of an empty unit, to which the scan comes without a failure. -/
theorem of_line_eq_zero (leads : (ofProgram (ofFilesTo start files last)).Leads s)
    (ok : s.next.outcome = .ok t) (zero : t.current.location.line = 0) :
    last.2 = [] ∧ (ofProgram (ofFilesTo start files last)).reading.failure = none ∧
      t.current.location = ⟨last.1, 0⟩ ∧
        (t.current.kind = .newline ∨ t.current.kind = .endOfInput) := by
  rcases next_line (ofFilesTo_ending start files last) leads ok with line | ⟨place, kind, at_end⟩
  · omega
  · have length : (linesOf last.1 last.2).length = 0 := by rw [← zero, place]
    have whole := Scanner.Leads.failure_eq_none (leads.tail ok) at_end.failure_eq_none
    rw [length] at place
    exact ⟨linesOf_length_eq_zero.mp length, whole, place, kind⟩

/-- Every token that the calls of a scan give stands on a line that is counted from one. -/
def CountsFromOne (p : Program) : Prop :=
  ∀ s t, (ofProgram p).Leads s → s.next.outcome = .ok t → 1 ≤ t.current.location.line

theorem ofFilesTo_countsFromOne (start : Location) (files : List (String × Bytes))
    (last : String × Bytes) : CountsFromOne (ofFilesTo start files last) ↔
      last.2 ≠ [] ∨ (ofProgram (ofFilesTo start files last)).reading.failure ≠ none := by
  constructor
  · intro counts
    by_contra neither
    push Not at neither
    obtain ⟨empty, whole⟩ := neither
    obtain ⟨s, t, leads, ok, at_end⟩ := Scanner.leads_to_end whole
    have line := counts s t leads ok
    rw [end_place (ofFilesTo_ending start files last) leads ok at_end,
      linesOf_length_eq_zero.mpr empty] at line
    exact absurd line (Nat.not_succ_le_zero 0)
  · intro either s t leads ok
    by_contra zero
    obtain ⟨empty, whole, _⟩ := of_line_eq_zero leads ok (by omega)
    exact either.elim (fun more => more empty) fun fails => fails whole

/-- Lines are counted from one unless the last unit is empty and the scan comes to its end. Then the line
feed at the end, if it is supplied, and the end of input stand on line zero of that unit. -/
theorem countsFromOne_iff (text : Bytes) (start : Location) (files : List (String × Bytes))
    (last : String × Bytes) :
    let p := ofFilesTo start files last
    (CountsFromOne (inline text) ↔ text ≠ []) ∧
      (CountsFromOne p ↔ last.2 ≠ [] ∨ (ofProgram p).reading.failure ≠ none) ∧
      ∀ s t, (ofProgram p).Leads s → s.next.outcome = .ok t → t.current.location.line = 0 →
        last.2 = [] ∧ t.current.location = ⟨last.1, 0⟩ ∧
          (t.current.kind = .newline ∨ t.current.kind = .endOfInput) := by
  intro p
  have empty : (ofProgram (inline [])).reading.failure = none := by
    rw [Scanner.reading, Scanner.advances_eq_within (Nat.lt_succ_self _)]
    decide
  refine ⟨?_, ofFilesTo_countsFromOne start files last, fun s t leads ok zero => ?_⟩
  · refine (ofFilesTo_countsFromOne ⟨inlineName, 0⟩ [] (inlineName, text)).trans ⟨?_, .inl⟩
    rintro (more | fails)
    · exact more
    · rintro rfl
      exact fails empty
  · obtain ⟨empty, _, place, kind⟩ := of_line_eq_zero leads ok zero
    exact ⟨empty, place, kind⟩

/-- The last file is empty, and the line feed that is supplied stands in it. -/
theorem countsFromOne_iff_supplied :
    let p := ofFilesTo ⟨"", 0⟩ [("a.awk", ascii "x")] ("b.awk", [])
    ∃ s t, (ofProgram p).Leads s ∧ s.next.outcome = .ok t ∧ t.current.location.line = 0 ∧
      t.current.location = ⟨"b.awk", 0⟩ ∧ (t.current.kind = .newline ∨ t.current.kind = .endOfInput) := by
  intro p
  obtain ⟨s, t, first, second, zero⟩ : ∃ s t, (ofProgram p).next.outcome = .ok s ∧
      s.next.outcome = .ok t ∧ t.current.location.line = 0 := ⟨_, _, rfl, rfl, rfl⟩
  obtain ⟨_, place, kind⟩ := (countsFromOne_iff [] _ _ _).2.2 s t (.single first) second zero
  exact ⟨s, t, .single first, second, zero, place, kind⟩

/-- The empty program, and a program that ends with an empty file. -/
theorem not_countsFromOne : ¬ CountsFromOne (inline []) ∧
    ¬ CountsFromOne (ofFilesTo ⟨"", 0⟩ [("a.awk", ascii "x\n")] ("b.awk", [])) := by
  refine ⟨fun counts => ?_, fun counts => ?_⟩
  · exact absurd (counts _ _ .refl rfl) (by decide)
  · exact absurd (counts _ _ (.tail (.single rfl) rfl) rfl) (by decide)

end Program

end AwkCore
