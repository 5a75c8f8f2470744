import AwkCore.Proofs.Scanner.Lexemes
import AwkCore.Proofs.Scanner.Spelling

/-!
# Readings

The reading of a scan is all that it gives: the tokens, the failure that ends it, if there is one, and
the warnings. `Reads` says what the reading of some glyphs is, one constructor for each way in which
a token can come out; `Passes` says the same of a scan that is stopped on its way. So a scan that
passes over some tokens and then reads the rest has read them all.
-/
namespace AwkCore

structure Reading where
  tokens : List Token
  failure : Option Failure
  warnings : List Diagnostic
  deriving DecidableEq, Repr

/-- A reading after some tokens and warnings that come first. -/
def Reading.after (tokens : List Token) (warnings : List Diagnostic) (r : Reading) : Reading :=
  ⟨tokens ++ r.tokens, r.failure, warnings ++ r.warnings⟩

theorem Reading.after_after (ts us : List Token) (ds es : List Diagnostic) (r : Reading) :
    (r.after us es).after ts ds = r.after (ts ++ us) (ds ++ es) := by
  simp [Reading.after]

/-- The token for the end of input. -/
def Token.ending (l : Location) : Token := ⟨.endOfInput, [], Binary64.zero, l⟩

namespace Scanner

def Advance.token? (a : Advance) : Option Token :=
  match a.outcome with
  | .ok s => some s.current
  | .error _ => none

def Advance.failure? (a : Advance) : Option Failure :=
  match a.outcome with
  | .ok _ => none
  | .error failure => some failure

/-- What all calls up to the end of input or a failure give. -/
def reading (s : Scanner) : Reading :=
  ⟨s.advances.filterMap Advance.token?, s.advances.findSome? Advance.failure?,
    s.advances.flatMap Advance.warnings⟩

theorem reading_error {s : Scanner} {failure : Failure} (h : s.next.outcome = .error failure) :
    s.reading = ⟨[], some failure, s.next.warnings⟩ := by
  simp [reading, advances_error h, Advance.token?, Advance.failure?, h]

theorem reading_last {s t : Scanner} (h : s.next.outcome = .ok t)
    (ends : t.current.kind = .endOfInput) :
    s.reading = ⟨[t.current], none, s.next.warnings⟩ := by
  simp [reading, advances_ok h, ends, Advance.token?, Advance.failure?, h]

theorem reading_more {s t : Scanner} (h : s.next.outcome = .ok t)
    (more : t.current.kind ≠ .endOfInput) :
    s.reading = t.reading.after [t.current] s.next.warnings := by
  simp [reading, advances_ok h, more, Advance.token?, Advance.failure?, h, Reading.after]

/-- The reading of some glyphs after a token of some kind, where the program ends at a place. -/
inductive Reads (finish : Location) : Kind → List Glyph → Reading → Prop
  | refused {previous : Kind} {gs rest : List Glyph} {failure : Failure} {warnings : List Diagnostic}
      (read : readToken finish previous.producesValue gs = ⟨.error failure, warnings, rest⟩) :
    Reads finish previous gs ⟨[], some failure, warnings⟩
  | last {previous : Kind} {gs rest : List Glyph} {t : Token} {warnings : List Diagnostic}
      (read : readToken finish previous.producesValue gs = ⟨.ok t, warnings, rest⟩)
      (ends : t.kind = .endOfInput) : Reads finish previous gs ⟨[t], none, warnings⟩
  | more {previous : Kind} {gs rest : List Glyph} {t : Token} {warnings : List Diagnostic}
      {r : Reading}
      (read : readToken finish previous.producesValue gs = ⟨.ok t, warnings, rest⟩)
      (more : t.kind ≠ .endOfInput) (later : Reads finish t.kind rest r) :
    Reads finish previous gs (r.after [t] warnings)

/-- A scan on its way from some glyphs to others, with the tokens and warnings it gives. -/
inductive Passes (finish : Location) :
    Kind → List Glyph → List Token → List Diagnostic → Kind → List Glyph → Prop
  | done {previous : Kind} {gs : List Glyph} : Passes finish previous gs [] [] previous gs
  | more {previous last : Kind} {gs rest left : List Glyph} {t : Token} {ts : List Token}
      {warnings others : List Diagnostic}
      (read : readToken finish previous.producesValue gs = ⟨.ok t, warnings, rest⟩)
      (more : t.kind ≠ .endOfInput) (later : Passes finish t.kind rest ts others last left) :
    Passes finish previous gs (t :: ts) (warnings ++ others) last left

variable {finish : Location} {previous last : Kind} {gs rest : List Glyph} {r : Reading}
  {ts : List Token} {warnings : List Diagnostic} {s : Scanner}

theorem Passes.reads (passes : Passes finish previous gs ts warnings last rest)
    (later : Reads finish last rest r) : Reads finish previous gs (r.after ts warnings) := by
  induction passes with
  | done => simpa [Reading.after] using later
  | more read more _ ih =>
    have reads := Reads.more read more (ih later)
    rwa [Reading.after_after] at reads

theorem Passes.rest_suffix (passes : Passes finish previous gs ts warnings last rest) :
    rest <:+ gs := by
  induction passes with
  | done => exact List.suffix_refl _
  | more read _ _ ih =>
    have first := readToken_rest_suffix (congrArg Step.outcome read)
    rw [read] at first
    exact ih.trans first

theorem Passes.last_eq (passes : Passes finish previous gs ts warnings last rest) :
    last = ((ts.map Token.kind).getLast?).getD previous := by
  induction passes with
  | done => rfl
  | more _ _ _ ih => simp [ih, List.getLast?_cons]

/-- Only the token that is read first matters. -/
theorem Reads.congr {previous' : Kind} {gs' : List Glyph}
    (same : readToken finish previous.producesValue gs = readToken finish previous'.producesValue gs')
    (reads : Reads finish previous gs r) : Reads finish previous' gs' r := by
  cases reads with
  | refused read => exact .refused (same ▸ read)
  | last read ends => exact .last (same ▸ read) ends
  | more read more later => exact .more (same ▸ read) more later

theorem Reads.at_end (finish : Location) (previous : Kind) :
    Reads finish previous [] ⟨[Token.ending finish], none, []⟩ := .last rfl rfl

theorem readToken_end {divides : Bool} {e : Token}
    (ok : (readToken finish divides gs).outcome = .ok e) (ends : e.kind = .endOfInput) :
    ∃ l, readToken finish divides gs = .plain .endOfInput [] l [] := by
  rcases readToken_spelled ok with at_end | ⟨spelled, _⟩
  · exact at_end
  · exact absurd ends spelled.not_end

/-- A reading to the end of input passes over all tokens but the last. -/
theorem Reads.passes (reads : Reads finish previous gs r) (ok : r.failure = none) :
    ∃ ts last rest l, r.tokens = ts ++ [Token.ending l] ∧
      Passes finish previous gs ts r.warnings last rest ∧
      readToken finish last.producesValue rest = .plain .endOfInput [] l [] := by
  induction reads with
  | refused => simp at ok
  | @last previous gs rest t warnings read ends =>
    obtain ⟨l, at_end⟩ := readToken_end (congrArg Step.outcome read) ends
    rw [at_end] at read
    cases read
    exact ⟨[], previous, gs, l, rfl, .done, at_end⟩
  | more read more _ ih =>
    obtain ⟨ts, last, rest, l, tokens, passes, at_end⟩ := ih ok
    exact ⟨_ :: ts, last, rest, l, congrArg (_ :: ·) tokens, .more read more passes, at_end⟩

/-- A call that succeeds gives the token that was read, and no failure lies ahead of it. -/
theorem of_next_ok {t : Scanner} (ok : s.next.outcome = .ok t) :
    s.step.outcome = .ok t.current ∧ t.stream = { s.stream with glyphs := s.step.rest } ∧
      t.stream.fault? = none := by
  unfold next at ok
  cases ahead : s.stream.fault? with
  | some failure => simp [ahead] at ok
  | none =>
    simp only [ahead] at ok
    cases fault : Stream.fault? { s.stream with glyphs := s.step.rest } with
    | some failure =>
      rw [step] at fault
      simp [fault] at ok
    | none =>
      have here := fault
      rw [step] at here
      rw [here] at ok
      change s.step.outcome.map _ = _ at ok
      cases token : s.step.outcome with
      | error failure => simp [token, Except.map] at ok
      | ok token' =>
        rw [token] at ok
        obtain rfl := Except.ok.inj ok
        exact ⟨rfl, rfl, fault⟩

theorem Readable.of_next_error (h : s.Readable) {failure : Failure}
    (error : s.next.outcome = .error failure) : s.step.outcome = .error failure := by
  rw [h.next_outcome] at error
  cases token : s.step.outcome with
  | ok t => simp [token, Except.map] at error
  | error failure' => simpa [token, Except.map] using error

theorem Readable.next_warnings (h : s.Readable) : s.next.warnings = s.step.warnings :=
  (next_of_whole (h.whole _) (h.whole _)).2

/-- The reading of a scanner is the reading of its glyphs. -/
theorem Readable.reads (h : s.Readable) :
    Reads s.stream.finish s.current.kind s.stream.glyphs s.reading := by
  -- Each call reads from the glyphs that the call before has left.
  have read (s : Scanner) {outcome : Except Failure Token} (at_step : s.step.outcome = outcome) :
      readToken s.stream.finish s.current.kind.producesValue s.stream.glyphs =
        ⟨outcome, s.step.warnings, s.step.rest⟩ := by
    rw [← at_step]
    rfl
  induction s using advances.induct with
  | case1 s failure error =>
    rw [reading_error error, h.next_warnings]
    exact .refused (read s (h.of_next_error error))
  | case2 s t ok ends =>
    rw [reading_last ok ends, h.next_warnings]
    exact .last (read s (of_next_ok ok).1) ends
  | case3 s t ok more ih =>
    obtain ⟨token, stream, _⟩ := of_next_ok ok
    have later : Reads s.stream.finish t.current.kind s.step.rest t.reading := by
      have rest := ih (by rw [Readable, stream]; exact h)
      rwa [stream] at rest
    rw [reading_more ok more, h.next_warnings]
    exact .more (read s token) more later

theorem Readable.reading_eq (h : s.Readable)
    (reads : Reads s.stream.finish s.current.kind s.stream.glyphs r) : s.reading = r := by
  generalize at_finish : s.stream.finish = finish at reads
  generalize at_kind : s.current.kind = previous at reads
  generalize at_glyphs : s.stream.glyphs = gs at reads
  have read {a : Step} (s : Scanner) (at_finish : s.stream.finish = finish)
      (read : readToken finish s.current.kind.producesValue s.stream.glyphs = a) : s.step = a := by
    rw [step, at_finish, read]
  induction reads generalizing s with
  | refused at_step =>
    have at_step := read s at_finish (by rw [at_kind, at_glyphs, at_step])
    have error := h.next_outcome
    rw [at_step] at error
    rw [reading_error error, h.next_warnings, at_step]
  | last at_step ends =>
    have at_step := read s at_finish (by rw [at_kind, at_glyphs, at_step])
    have ok := h.next_ok (congrArg Step.outcome at_step)
    rw [reading_last ok ends, h.next_warnings, at_step]
  | @more _ _ rest t warnings _ at_step more _ ih =>
    have at_step := read s at_finish (by rw [at_kind, at_glyphs, at_step])
    have ok := h.next_ok (congrArg Step.outcome at_step)
    rw [at_step] at ok
    have later := ih (s := ⟨{ s.stream with glyphs := rest }, t, s.current.kind⟩) h at_finish rfl rfl
    rw [reading_more ok more, h.next_warnings, at_step]
    exact congrArg (Reading.after [t] warnings) later

/-- A scan that comes to the end of input has met no failure of the input. -/
theorem readable_of_reading (ok : s.reading.failure = none) : s.Readable := by
  induction s using advances.induct with
  | case1 s failure error => simp [reading_error error] at ok
  | case2 s t ok' ends =>
    obtain ⟨token, stream, whole⟩ := of_next_ok ok'
    obtain ⟨l, at_end⟩ := readToken_end token ends
    have rest : s.step.rest = [] := by
      rw [step, at_end]
      rfl
    rw [stream, rest] at whole
    cases ending : s.stream.ending with
    | ok place => exact ⟨place, ending⟩
    | error failure => simp [Stream.fault?, ending] at whole
  | case3 s t ok' more ih =>
    have later := ih (by simpa [reading_more ok' more, Reading.after] using ok)
    rwa [Readable, (of_next_ok ok').2.1] at later

/-- A scan to the end of input, whose last line is ended, passes over all of it. -/
theorem passes_of_reading {line e : Token}
    (read : s.reading = ⟨ts ++ [line, e], none, warnings⟩) (at_line : line.kind = .newline) :
    ∃ rest l, e = .ending l ∧
      Passes s.stream.finish s.current.kind s.stream.glyphs (ts ++ [line]) warnings .newline rest ∧
      readToken s.stream.finish false rest = .plain .endOfInput [] l [] := by
  have reads := (readable_of_reading (congrArg Reading.failure read)).reads
  rw [read] at reads
  obtain ⟨before, last, rest, l, tokens, passes, at_end⟩ := reads.passes rfl
  rw [List.append_cons] at tokens
  obtain ⟨rfl, ⟨⟩⟩ := List.append_inj' tokens rfl
  have stop := passes.last_eq
  rw [List.map_append, List.map_singleton, List.getLast?_concat, at_line] at stop
  obtain rfl : last = .newline := stop
  exact ⟨rest, l, rfl, passes, at_end⟩

end Scanner

end AwkCore
