import Mathlib.Algebra.Ring.Nat
import AwkCore.Proofs.Program.Faces
import AwkCore.Proofs.Scanner.Reads

/-!
# Scans come to an end

A program gives no more tokens than it has bytes, but for the end of its last line and the end of
input. Each token uses part of the program, and a scanner that has come to the end of input stays
there.
-/
namespace AwkCore

/-- The number of bytes in a unit. One that cannot be read has none. -/
def SourceUnit.size (u : SourceUnit) : ℕ :=
  match u.body with
  | .ok text => text.length
  | .error _ => 0

namespace Program

theorem ofBytes_length_le (l : Location) (n : ℕ) (joined : Bool) (bs : Bytes) :
    (Stream.ofBytes l n joined bs).length ≤ bs.length := by
  induction bs generalizing joined with
  | nil => exact Nat.le_refl _
  | cons b bs ih =>
    rw [Stream.ofBytes]
    split
    · exact (ih false).trans (Nat.le_succ _)
    · exact Nat.succ_le_succ (ih true)

theorem ofLines_length_le (n : ℕ) (ls : List Line) :
    (Stream.ofLines n ls).length ≤ (ls.flatMap Line.bytes).length := by
  induction ls generalizing n with
  | nil => exact Nat.le_refl _
  | cons l ls ih =>
    rw [Stream.ofLines, List.length_append, List.flatMap_cons, List.length_append]
    exact Nat.add_le_add (ofBytes_length_le _ _ _ _) (ih _)

/-- At most one line feed is supplied. -/
theorem glyphs_length_le (p : Program) :
    (Stream.ofProgram p).glyphs.length ≤ p.text.length + 1 := by
  have supplied : (Stream.supplied p).length ≤ 1 := by
    unfold Stream.supplied
    split
    · exact Nat.zero_le _
    · split <;> simp
  rw [Stream.ofProgram, List.length_append]
  exact Nat.add_le_add (ofLines_length_le 0 p.lines) supplied

theorem ofUnits_text_length_le (start : Location) (units : List SourceUnit) :
    (ofUnits start units).text.length ≤ (units.map SourceUnit.size).sum := by
  induction units generalizing start with
  | nil => exact Nat.le_refl _
  | cons u us ih =>
    rw [ofUnits, List.map_cons, List.sum_cons, SourceUnit.size]
    cases u.body with
    | error failure => simp [text]
    | ok body =>
      have first : ((linesOf u.name body).flatMap Line.bytes).length = body.length := by
        rw [List.flatMap_def, linesOf_bytes, flatten_cut]
      rw [text, List.flatMap_append, List.length_append, first]
      exact Nat.add_le_add_left (ih _) _

end Program

namespace Scanner

variable {s t u : Scanner} {finish : Location} {previous last : Kind} {gs rest : List Glyph}
  {ts : List Token} {warnings : List Diagnostic}

theorem advances_length_le (s : Scanner) : s.advances.length ≤ s.stream.glyphs.length + 1 := by
  induction s using advances.induct with
  | case1 s failure error => simp [advances_error error]
  | case2 s t ok ends => simp [advances_ok ok, ends]
  | case3 s t ok more ih =>
    have shorter := next_glyphs_length ok more
    rw [advances_ok ok, if_neg more, List.length_cons]
    omega

theorem reading_length_le (s : Scanner) : s.reading.tokens.length ≤ s.stream.glyphs.length + 1 :=
  (List.length_filterMap_le _ _).trans s.advances_length_le

theorem Passes.not_end (passes : Passes finish previous gs ts warnings last rest) :
    ∀ t ∈ ts, t.kind ≠ .endOfInput := by
  induction passes with
  | done => simp
  | more _ more _ ih => exact List.forall_mem_cons.mpr ⟨more, ih⟩

/-- What is used for a token lies between the glyphs before it and those behind it. -/
theorem next_uses (ok : s.next.outcome = .ok t) (more : t.current.kind ≠ .endOfInput) :
    ∃ used, used ≠ [] ∧ s.stream.glyphs = used ++ t.stream.glyphs := by
  have shorter := next_glyphs_length ok more
  obtain ⟨token, stream, _⟩ := of_next_ok ok
  obtain ⟨used, split⟩ : t.stream.glyphs <:+ s.stream.glyphs := by
    rw [stream]
    exact readToken_rest_suffix token
  refine ⟨used, ?_, split.symm⟩
  rintro rfl
  rw [← split] at shorter
  exact absurd shorter (Nat.lt_irrefl _)

/-- A scanner at the end of a program that can be read to its end. -/
structure AtEnd (s : Scanner) : Prop where
  readable : s.Readable
  no_glyphs : s.stream.glyphs = []

theorem AtEnd.of_next (ok : s.next.outcome = .ok t) (ends : t.current.kind = .endOfInput) :
    t.AtEnd := by
  obtain ⟨token, stream, whole⟩ := of_next_ok ok
  obtain ⟨l, at_end⟩ := readToken_end token ends
  have no_glyphs : t.stream.glyphs = [] := by
    rw [stream, step, at_end]
    rfl
  constructor
  case readable =>
    cases ending : t.stream.ending with
    | ok place => exact ⟨place, ending⟩
    | error failure => simp [Stream.fault?, no_glyphs, ending] at whole
  case no_glyphs => exact no_glyphs

/-- A call at the end gives the end of input, without a warning, and stays there. -/
theorem AtEnd.next (at_end : s.AtEnd) : ∃ t, s.next.outcome = .ok t ∧
    t.current = .ending s.stream.finish ∧ s.next.warnings = [] ∧ t.AtEnd := by
  have read : s.step = .plain .endOfInput [] s.stream.finish [] := by
    rw [step, at_end.no_glyphs]
    rfl
  refine ⟨_, at_end.readable.next_ok (congrArg Step.outcome read), rfl, ?_, ?_⟩
  · rw [at_end.readable.next_warnings, read]
    rfl
  · constructor
    case readable => exact at_end.readable
    case no_glyphs => exact congrArg Step.rest read

/-- The call behind some calls, or the first of them that fails. -/
def callAfter : ℕ → Scanner → Advance
  | 0, s => s.next
  | n + 1, s =>
    match s.next.outcome with
    | .ok t => callAfter n t
    | .error _ => s.next

theorem AtEnd.callAfter (at_end : s.AtEnd) (n : ℕ) : ∃ t l, (s.callAfter n).outcome = .ok t ∧
    t.current = .ending l ∧ (s.callAfter n).warnings = [] := by
  induction n generalizing s with
  | zero =>
    obtain ⟨t, ok, token, silent, _⟩ := at_end.next
    exact ⟨t, _, ok, token, silent⟩
  | succ n ih =>
    obtain ⟨t, ok, _, _, stays⟩ := at_end.next
    rw [Scanner.callAfter, ok]
    exact ih stays

end Scanner

namespace Program

/-- A scan takes two calls more than there are bytes, at most. It fails, or it gives the end of input as
its last token and at no other place. Every call but one that gives the end of input uses part of the
program, and all calls behind such a one give it again. -/
theorem scan_ends (start : Location) (units : List SourceUnit) :
    let s := Scanner.ofProgram (ofUnits start units)
    let n := (units.map SourceUnit.size).sum
    s.advances = s.advancesWithin (n + 2) ∧ s.reading.tokens.length ≤ n + 2 ∧
      (s.reading.failure ≠ none ∨
        ∃ ts l, s.reading.tokens = ts ++ [.ending l] ∧ ∀ t ∈ ts, t.kind ≠ .endOfInput) ∧
      ∀ t u : Scanner, t.next.outcome = .ok u →
        (u.current.kind ≠ .endOfInput →
          ∃ used, used ≠ [] ∧ t.stream.glyphs = used ++ u.stream.glyphs) ∧
        (u.current.kind = .endOfInput → ∀ k, ∃ v l, (u.callAfter k).outcome = .ok v ∧
          v.current = .ending l ∧ (u.callAfter k).warnings = []) := by
  intro s n
  have glyphs : s.stream.glyphs.length ≤ n + 1 :=
    (glyphs_length_le _).trans (Nat.succ_le_succ (ofUnits_text_length_le start units))
  refine ⟨Scanner.advances_eq_within (Nat.lt_succ_of_le glyphs), ?_, ?_, fun t u ok => ?_⟩
  · exact s.reading_length_le.trans (Nat.succ_le_succ glyphs)
  · by_cases whole : s.reading.failure = none
    · obtain ⟨ts, _, _, l, tokens, passes, _⟩ := (Scanner.readable_of_reading whole).reads.passes whole
      exact .inr ⟨ts, l, tokens, passes.not_end⟩
    · exact .inl whole
  · exact ⟨Scanner.next_uses ok, fun ends => (Scanner.AtEnd.of_next ok ends).callAfter⟩

theorem scan_ends_name :
    let s := Scanner.ofProgram (inline (ascii "x"))
    ∃ t u v, s.next.outcome = .ok t ∧ t.current.kind = .name ∧
      (∃ used, used ≠ [] ∧ s.stream.glyphs = used ++ t.stream.glyphs) ∧
      t.next.outcome = .ok u ∧ u.next.outcome = .ok v ∧ v.current.kind = .endOfInput ∧
      ∀ k, ∃ w l, (v.callAfter k).outcome = .ok w ∧ w.current = .ending l ∧
        (v.callAfter k).warnings = [] := by
  intro s
  obtain ⟨t, u, v, first, name, second, third, ends⟩ : ∃ t u v, s.next.outcome = .ok t ∧
      t.current.kind = .name ∧ t.next.outcome = .ok u ∧ u.next.outcome = .ok v ∧
      v.current.kind = .endOfInput := ⟨_, _, _, rfl, rfl, rfl, rfl, rfl⟩
  obtain ⟨_, _, _, calls⟩ := scan_ends ⟨inlineName, 0⟩ [⟨inlineName, .ok (ascii "x")⟩]
  exact ⟨t, u, v, first, name, (calls s t first).1 (by simp [name]), second, third, ends,
    (calls u v third).2 ends⟩

end Program

end AwkCore
