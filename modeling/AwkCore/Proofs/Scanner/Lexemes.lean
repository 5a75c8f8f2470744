import AwkCore.Proofs.Scanner.Cuts

/-!
# What a scan reads

The lexemes of a scan are its tokens apart from their places, ended by the end of input or by a
complaint. Two scans of glyphs that are alike, all of them readable, have the same lexemes exactly
if no number that the first one reads spans a place where the second one lacks a joint.
-/
namespace AwkCore.Scanner

def Advance.lexeme (a : Advance) : Except String Lexeme := lexemeOf (a.outcome.map Scanner.current)

/-- Kinds, texts and values of all tokens up to the end of input, or up to a complaint. -/
def lexemes (s : Scanner) : List (Except String Lexeme) := (advances s).map Advance.lexeme

/-- Where a number that is read starts and stops among all glyphs, whose number is given. -/
def Advance.span? (total : ℕ) (a : Advance) : Option (ℕ × ℕ) :=
  match a.outcome with
  | .error _ => none
  | .ok s =>
    if s.current.kind = .number then
      let stop := total - s.stream.glyphs.length
      some (stop - s.current.text.length, stop)
    else none

def spans (total : ℕ) (s : Scanner) : List (ℕ × ℕ) :=
  (advances s).filterMap (Advance.span? total)

/-- The spans of all numbers that a scan reads. -/
def numberSpans (s : Scanner) : List (ℕ × ℕ) := s.spans s.stream.glyphs.length

/-- A place lies inside of a span, behind its start. -/
def Splits (e : ℕ) (span : ℕ × ℕ) : Prop := span.1 < e ∧ e < span.2

instance (e : ℕ) (span : ℕ × ℕ) : Decidable (Splits e span) :=
  inferInstanceAs (Decidable (_ ∧ _))

theorem advances_error {s : Scanner} {failure : Failure} (h : s.next.outcome = .error failure) :
    advances s = [s.next] := by
  rw [advances]
  split
  · rfl
  · rename_i ok
    rw [h] at ok
    obtain ⟨⟩ := ok

theorem advances_ok {s t : Scanner} (h : s.next.outcome = .ok t) : advances s =
    if t.current.kind = .endOfInput then [s.next] else s.next :: advances t := by
  rw [advances]
  split
  · rename_i error
    rw [h] at error
    obtain ⟨⟩ := error
  · rename_i ok
    obtain rfl := Except.ok.inj (h.symm.trans ok)
    rfl

theorem head_advances (s : Scanner) : (advances s).head? = some s.next := by
  cases h : s.next.outcome with
  | error failure => rw [advances_error h]; rfl
  | ok t =>
    rw [advances_ok h]
    split <;> rfl

/-- The calls of a scan, as many of them as a number allows. -/
def advancesWithin : ℕ → Scanner → List Advance
  | 0, _ => []
  | n + 1, s =>
    match s.next.outcome with
    | .error _ => [s.next]
    | .ok t => if t.current.kind = .endOfInput then [s.next] else s.next :: advancesWithin n t

/-- A scan comes to its end within as many calls as there are glyphs, and one more. -/
theorem advances_eq_within {s : Scanner} {n : ℕ} (h : s.stream.glyphs.length < n) :
    advances s = advancesWithin n s := by
  induction n generalizing s with
  | zero => exact absurd h (Nat.not_lt_zero _)
  | succ n ih =>
    cases next : s.next.outcome with
    | error failure => rw [advances_error next, advancesWithin, next]
    | ok t =>
      rw [advances_ok next, advancesWithin, next]
      by_cases last : t.current.kind = .endOfInput
      · simp only [if_pos last]
      · have length := next_glyphs_length next last
        simp only [if_neg last, ih (s := t) (by omega)]

/-- The token that a scanner reads next. -/
def step (s : Scanner) : Step :=
  readToken s.stream.finish s.current.kind.producesValue s.stream.glyphs

/-- A scanner of a program that can be read to its end. -/
def Readable (s : Scanner) : Prop := ∃ l, s.stream.ending = .ok l

/-- A call gives what it reads, unless a failure of the input lies ahead of that or right behind. -/
theorem next_of_whole {s : Scanner} (ahead : s.stream.fault? = none)
    (behind : Stream.fault? { s.stream with glyphs := s.step.rest } = none) :
    s.next.outcome = (s.step.outcome.map fun token =>
        ⟨{ s.stream with glyphs := s.step.rest }, token, s.current.kind⟩) ∧
      s.next.warnings = s.step.warnings := by
  rw [step] at behind ⊢
  simp [next, ahead, behind]

theorem Readable.whole {s : Scanner} (h : s.Readable) (gs : List Glyph) :
    Stream.fault? { s.stream with glyphs := gs } = none := by
  obtain ⟨l, hl⟩ := h
  simp only [Stream.fault?, hl]

theorem Readable.next_outcome {s : Scanner} (h : s.Readable) : s.next.outcome =
    s.step.outcome.map fun token =>
      ⟨{ s.stream with glyphs := s.step.rest }, token, s.current.kind⟩ :=
  (next_of_whole (h.whole _) (h.whole _)).1

theorem Readable.next_ok {s : Scanner} (h : s.Readable) {token : Token}
    (ok : s.step.outcome = .ok token) : s.next.outcome =
      .ok ⟨{ s.stream with glyphs := s.step.rest }, token, s.current.kind⟩ := by
  rw [h.next_outcome, ok]
  rfl

theorem Readable.lexeme_next {s : Scanner} (h : s.Readable) :
    s.next.lexeme = lexemeOf s.step.outcome := by
  rw [Advance.lexeme, h.next_outcome]
  cases s.step.outcome <;> rfl

theorem head_lexemes {s : Scanner} (h : s.Readable) :
    s.lexemes.head? = some (lexemeOf s.step.outcome) := by
  rw [lexemes, List.head?_map, head_advances, Option.map_some, h.lexeme_next]

/-- Two scanners that have come equally far in alike glyphs, with the same token behind. -/
structure Abreast (gs hs : List Glyph) (s u : Scanner) : Prop where
  readable : s.Readable
  readable' : u.Readable
  kind_eq : s.current.kind = u.current.kind
  alike : Alike (fun _ _ => True) s.stream.glyphs u.stream.glyphs
  behind : ∃ before before', gs = before ++ s.stream.glyphs ∧ hs = before' ++ u.stream.glyphs ∧
    before.length = before'.length

/-- The places at which the second of two lists of glyphs lacks a joint. -/
def Loose (gs hs : List Glyph) (places : List ℕ) : Prop :=
  ∀ (p : ℕ) (g h : Glyph), gs[p]? = some g → hs[p]? = some h → g.joined = true →
    (h.joined = false ↔ p ∈ places)

variable {gs hs : List Glyph} {s u : Scanner} {places : List ℕ}

/-- A number is cut exactly if its span is split at a loose place. -/
theorem Abreast.cut_iff (abreast : Abreast gs hs s u) (loose : Loose gs hs places) {t : Token}
    (ok : s.step.outcome = .ok t) (number : t.kind = .number) :
    s.step.Cut s.stream.glyphs u.stream.glyphs ↔ ∃ e ∈ places,
      Splits e (gs.length - s.step.rest.length - t.text.length, gs.length - s.step.rest.length) := by
  obtain ⟨before, before', at_gs, at_hs, length⟩ := abreast.behind
  have fits : s.step.rest.length + t.text.length ≤ s.stream.glyphs.length :=
    readToken_fits ok number
  have whole := congrArg List.length at_gs
  have alike := abreast.alike.length_eq
  rw [List.length_append] at whole
  have at_p {p : ℕ} : gs[before.length + p]? = s.stream.glyphs[p]? ∧
      hs[before.length + p]? = u.stream.glyphs[p]? := by
    rw [at_gs, at_hs, List.getElem?_append_right (by omega), List.getElem?_append_right (by omega),
      length, Nat.add_sub_cancel_left]
    exact ⟨rfl, rfl⟩
  constructor
  · rintro ⟨p, h, inside, at_h, not_joined⟩
    obtain ⟨t', ok', _, start, stop⟩ := id inside
    obtain rfl : t = t' := Except.ok.inj (ok.symm.trans ok')
    obtain ⟨g, at_g⟩ : ∃ g, s.stream.glyphs[p]? = some g :=
      ⟨_, List.getElem?_eq_getElem (by omega)⟩
    have joined := readToken_joined inside at_g
    refine ⟨before.length + p, ?_, ?_, ?_⟩
    · exact (loose _ g h (at_p.1.trans at_g) (at_p.2.trans at_h) joined).mp not_joined
    · dsimp only
      omega
    · dsimp only
      omega
  · rintro ⟨e, mem, start, stop⟩
    dsimp only at start stop
    obtain ⟨p, rfl⟩ : ∃ p, e = before.length + p := ⟨e - before.length, by omega⟩
    obtain ⟨g, at_g⟩ : ∃ g, s.stream.glyphs[p]? = some g :=
      ⟨_, List.getElem?_eq_getElem (by omega)⟩
    obtain ⟨h, at_h⟩ : ∃ h, u.stream.glyphs[p]? = some h :=
      ⟨_, List.getElem?_eq_getElem (by omega)⟩
    have inside : s.step.Inside s.stream.glyphs p := ⟨t, ok, number, by omega, by omega⟩
    have joined := readToken_joined inside at_g
    exact ⟨p, h, inside, at_h,
      (loose _ g h (at_p.1.trans at_g) (at_p.2.trans at_h) joined).mpr mem⟩

/-- Scanners that are abreast stay so over a token that reads alike. -/
theorem Abreast.next_ok (abreast : Abreast gs hs s u)
    (like : s.step.Like (fun _ _ => True) u.step) {t : Scanner} (ok : s.next.outcome = .ok t) :
    ∃ t', u.next.outcome = .ok t' ∧ t.current.lexeme = t'.current.lexeme ∧ Abreast gs hs t t' := by
  have outcome := like.outcome
  cases token : s.step.outcome with
  | error failure =>
    rw [abreast.readable.next_outcome, token] at ok
    cases ok
  | ok token₁ =>
    obtain rfl := Except.ok.inj ((abreast.readable.next_ok token).symm.trans ok)
    rw [token] at outcome
    generalize token' : u.step.outcome = outcome' at outcome
    obtain ⟨same⟩ | _ := outcome
    obtain ⟨before, before', at_gs, at_hs, length⟩ := abreast.behind
    obtain ⟨used, at_rest⟩ := readToken_rest_suffix token
    obtain ⟨used', at_rest'⟩ := readToken_rest_suffix token'
    have lengths : used.length = used'.length := by
      have whole := abreast.alike.length_eq
      have part := like.rest.length_eq
      rw [← at_rest, ← at_rest', List.length_append, List.length_append] at whole
      unfold step at part
      omega
    refine ⟨_, abreast.readable'.next_ok token', ?_, ?_⟩
    · simp only [Token.lexeme, same.kind_eq, same.text_eq, same.value_eq]
    constructor
    case readable => exact abreast.readable
    case readable' => exact abreast.readable'
    case kind_eq => exact same.kind_eq
    case alike => exact like.rest
    case behind =>
      refine ⟨before ++ used, before' ++ used', ?_, ?_, ?_⟩
      · rw [List.append_assoc]
        exact at_gs.trans (congrArg _ at_rest.symm)
      · rw [List.append_assoc]
        exact at_hs.trans (congrArg _ at_rest'.symm)
      · rw [List.length_append, List.length_append, length, lengths]

theorem Abreast.next_error (abreast : Abreast gs hs s u)
    (like : s.step.Like (fun _ _ => True) u.step) {failure : Failure}
    (error : s.next.outcome = .error failure) :
    ∃ failure', u.next.outcome = .error failure' ∧ failure.complaint = failure'.complaint := by
  have outcome := like.outcome
  rw [abreast.readable.next_outcome] at error
  generalize token : s.step.outcome = a at outcome error
  generalize token' : u.step.outcome = b at outcome
  cases outcome with
  | token => cases error
  | refused place message =>
    rename_i l m
    obtain rfl := Except.error.inj error
    refine ⟨.lexical m message, ?_, rfl⟩
    rw [abreast.readable'.next_outcome, token']
    rfl

theorem Abreast.step_cases (abreast : Abreast gs hs s u) :
    (¬ s.step.Cut s.stream.glyphs u.stream.glyphs ∧ s.step.Like (fun _ _ => True) u.step) ∨
      (s.step.Cut s.stream.glyphs u.stream.glyphs ∧
        lexemeOf s.step.outcome ≠ lexemeOf u.step.outcome) := by
  rw [step, step, abreast.kind_eq]
  exact readToken_cases trivial abreast.alike

/-- The span of the token that a scanner reads next is split at a loose place exactly if the token
is cut. -/
theorem Abreast.span_next (abreast : Abreast gs hs s u) (loose : Loose gs hs places) {t : Token}
    (ok : s.step.outcome = .ok t) :
    s.step.Cut s.stream.glyphs u.stream.glyphs ↔
      ∃ span, s.next.span? gs.length = some span ∧ ∃ e ∈ places, Splits e span := by
  simp only [Advance.span?, abreast.readable.next_ok ok]
  by_cases number : t.kind = .number
  · rw [abreast.cut_iff loose ok number, if_pos number]
    constructor
    · rintro ⟨e, mem, splits⟩
      refine ⟨_, rfl, e, mem, ?_⟩
      exact splits
    · rintro ⟨span, ⟨⟩, e, mem, splits⟩
      exact ⟨e, mem, splits⟩
  · rw [if_neg number]
    constructor
    · rintro ⟨p, h, ⟨t', ok', number', _⟩, _⟩
      obtain rfl : t = t' := Except.ok.inj (ok.symm.trans ok')
      exact absurd number' number
    · rintro ⟨span, ⟨⟩, _⟩

theorem Abreast.span_next_uncut (abreast : Abreast gs hs s u) (loose : Loose gs hs places)
    {t : Scanner} (ok : s.next.outcome = .ok t)
    (whole : ¬ s.step.Cut s.stream.glyphs u.stream.glyphs) :
    ∀ span, s.next.span? gs.length = some span → ∀ e ∈ places, ¬ Splits e span := by
  intro span here e mem splits
  cases token : s.step.outcome with
  | error failure =>
    rw [abreast.readable.next_outcome, token] at ok
    cases ok
  | ok token₁ => exact whole ((abreast.span_next loose token).mpr ⟨span, here, e, mem, splits⟩)

/-- A number that is cut shows in the lexemes. -/
theorem Abreast.iff_of_cut (abreast : Abreast gs hs s u) (loose : Loose gs hs places)
    (cut : s.step.Cut s.stream.glyphs u.stream.glyphs)
    (differ : lexemeOf s.step.outcome ≠ lexemeOf u.step.outcome) :
    s.lexemes = u.lexemes ↔ ∀ span ∈ s.spans gs.length, ∀ e ∈ places, ¬ Splits e span := by
  apply iff_of_false
  · intro same
    have heads := head_lexemes abreast.readable
    rw [same, head_lexemes abreast.readable'] at heads
    exact differ (Option.some.inj heads).symm
  · intro whole
    obtain ⟨_, _, ⟨t, ok, _⟩, _⟩ := id cut
    obtain ⟨span, at_next, e, mem, splits⟩ := (abreast.span_next loose ok).mp cut
    have first : s.next ∈ advances s := List.mem_of_mem_head? (head_advances s)
    exact whole span (List.mem_filterMap.mpr ⟨s.next, first, at_next⟩) e mem splits

theorem lexemes_error {failure : Failure} (error : s.next.outcome = .error failure) (total : ℕ) :
    s.lexemes = [.error failure.complaint] ∧ s.spans total = [] := by
  rw [lexemes, spans, advances_error error]
  constructor
  · rw [List.map_singleton, Advance.lexeme, error]
    rfl
  · simp [Advance.span?, error]

theorem lexemes_ok {t : Scanner} (ok : s.next.outcome = .ok t) (total : ℕ) :
    s.lexemes = .ok t.current.lexeme :: (if t.current.kind = .endOfInput then [] else t.lexemes) ∧
      s.spans total = (s.next.span? total).toList ++
        (if t.current.kind = .endOfInput then [] else t.spans total) := by
  have head : s.next.lexeme = .ok t.current.lexeme := by
    rw [Advance.lexeme, ok]
    rfl
  rw [lexemes, spans, advances_ok ok]
  split
  · rw [List.map_singleton, head]
    cases span : s.next.span? total <;> simp [span]
  · rw [List.map_cons, head]
    cases span : s.next.span? total <;> simp [span, lexemes, spans]

/-- Alike glyphs have the same lexemes exactly if no number spans a loose place. -/
theorem Abreast.lexemes_eq_iff (abreast : Abreast gs hs s u) (loose : Loose gs hs places) :
    s.lexemes = u.lexemes ↔ ∀ span ∈ s.spans gs.length, ∀ e ∈ places, ¬ Splits e span := by
  -- Both scans go on together up to the first number that is cut, and there their lexemes differ.
  induction s using advances.induct generalizing u with
  | case1 s failure error =>
    rcases abreast.step_cases with ⟨_, like⟩ | ⟨cut, differ⟩
    · obtain ⟨failure', error', same⟩ := abreast.next_error like error
      rw [(lexemes_error error gs.length).1, (lexemes_error error gs.length).2,
        (lexemes_error error' gs.length).1, same]
      simp
    · exact abreast.iff_of_cut loose cut differ
  | case2 s t ok last =>
    rcases abreast.step_cases with ⟨whole, like⟩ | ⟨cut, differ⟩
    · obtain ⟨t', ok', same, after⟩ := abreast.next_ok like ok
      have uncut := abreast.span_next_uncut loose ok whole
      have last' := after.kind_eq.symm.trans last
      rw [(lexemes_ok ok gs.length).1, (lexemes_ok ok gs.length).2, (lexemes_ok ok' gs.length).1,
        if_pos last, if_pos last, if_pos last', same]
      simpa using uncut
    · exact abreast.iff_of_cut loose cut differ
  | case3 s t ok more ih =>
    rcases abreast.step_cases with ⟨whole, like⟩ | ⟨cut, differ⟩
    · obtain ⟨t', ok', same, after⟩ := abreast.next_ok like ok
      have uncut := abreast.span_next_uncut loose ok whole
      have more' : t'.current.kind ≠ .endOfInput := after.kind_eq ▸ more
      rw [(lexemes_ok ok gs.length).1, (lexemes_ok ok gs.length).2, (lexemes_ok ok' gs.length).1,
        if_neg more, if_neg more, if_neg more', same, List.cons.injEq, ih after]
      constructor
      · rintro ⟨_, rest⟩ span mem
        rcases List.mem_append.mp mem with here | later
        · exact uncut span (Option.mem_toList.mp here)
        · exact rest span later
      · intro all
        exact ⟨rfl, fun span mem => all span (List.mem_append_right _ mem)⟩
    · exact abreast.iff_of_cut loose cut differ

end AwkCore.Scanner
