import AwkCore.Proofs.Program.Positions

/-!
# Numbers in the source

A number is looked for in bytes that are joined, and a joint goes neither over a carriage return nor
over the end of a line. So the text of a number token stands in the source as it is, all of it in the
place of the token, and the scan goes on right behind it.
-/
namespace AwkCore

namespace Program

/-- The bytes of a program with their places, and the line feed that is supplied behind them. -/
def source (p : Program) : List Spot :=
  p.lines.flatMap placedLine ++ (Stream.supplied p).map Glyph.spot

theorem source_bytes (p : Program) :
    p.source.map Prod.fst = p.text ++ (Stream.supplied p).map Glyph.byte := by
  simp [source, text, placedLine, List.map_flatMap, Function.comp_def, Glyph.spot]

/-- Nothing before these glyphs is joined to them. -/
def Apart (gs : List Glyph) : Prop := ∀ g ∈ gs.head?, g.joined = false

/-- Glyphs that show some bytes of the source. A carriage return is hidden, and it leaves no joint. What
is joined stands in one place. -/
inductive Displays : List Spot → List Glyph → Prop
  | nil : Displays [] []
  | hidden {l : Location} {left : List Spot} {gs : List Glyph} (apart : Apart gs)
      (later : Displays left gs) : Displays ((Byte.carriageReturn, l) :: left) gs
  | glyph {g : Glyph} {left : List Spot} {gs : List Glyph} (visible : g.byte ≠ Byte.carriageReturn)
      (level : ∀ h ∈ gs.head?, h.joined = true → h.location = g.location)
      (later : Displays left gs) : Displays (g.spot :: left) (g :: gs)

variable {l : Location} {left : List Spot} {before gs run : List Glyph} {g : Glyph}

theorem Displays.seen (displays : Displays left gs) : gs.map Glyph.spot = seen left := by
  induction displays with
  | nil => rfl
  | hidden _ _ ih => simpa [Program.seen] using ih
  | glyph visible _ _ ih => rw [List.map_cons, seen_cons visible, ih]

/-- Some glyphs come from the bytes at the front, and the others from those behind. -/
theorem Displays.split (displays : Displays left (before ++ gs)) : ∃ front rest,
    left = front ++ rest ∧ Program.seen front = before.map Glyph.spot ∧ Displays rest gs := by
  generalize all : before ++ gs = hs at displays
  induction displays generalizing before with
  | nil =>
    obtain ⟨rfl, rfl⟩ := List.append_eq_nil_iff.mp all
    exact ⟨[], [], rfl, rfl, .nil⟩
  | @hidden l left hs apart later ih =>
    obtain ⟨front, rest, rfl, at_front, behind⟩ := ih all
    exact ⟨(Byte.carriageReturn, l) :: front, rest, rfl, by simpa [Program.seen] using at_front, behind⟩
  | @glyph g left hs visible level later ih =>
    cases before with
    | nil =>
      rw [List.nil_append] at all
      rw [all]
      exact ⟨[], _, rfl, rfl, .glyph visible level later⟩
    | cons b before =>
      rw [List.cons_append] at all
      obtain ⟨rfl, rfl⟩ := List.cons.inj all
      obtain ⟨front, rest, rfl, at_front, behind⟩ := ih rfl
      exact ⟨b.spot :: front, rest, rfl, by rw [seen_cons visible, at_front, List.map_cons], behind⟩

/-- A glyph comes from a byte behind which the others follow; before it there may be hidden ones. -/
theorem Displays.first (displays : Displays left (g :: gs)) : ∃ returns after,
    left = returns ++ g.spot :: after ∧ Program.seen returns = [] ∧ Displays after gs ∧
      ∀ h ∈ gs.head?, h.joined = true → h.location = g.location := by
  generalize all : g :: gs = hs at displays
  induction displays with
  | nil => cases all
  | @hidden l left hs apart later ih =>
    obtain ⟨returns, after, rfl, none, behind⟩ := ih all
    exact ⟨(Byte.carriageReturn, l) :: returns, after, rfl, by simpa [Program.seen] using none, behind⟩
  | @glyph h left hs visible level later =>
    obtain ⟨rfl, rfl⟩ := List.cons.inj all
    exact ⟨[], left, rfl, rfl, later, level⟩

/-- Glyphs that are all joined come from bytes that stand together in one place. -/
theorem Displays.joined_run (displays : Displays left (run ++ gs)) (joined : ∀ h ∈ run, h.joined = true)
    (level : ∀ h ∈ (run ++ gs).head?, h.joined = true → h.location = l) :
    ∃ after, left = (Scanner.bytesOf run).map (·, l) ++ after ∧ Displays after gs := by
  induction run generalizing left with
  | nil => exact ⟨left, rfl, displays⟩
  | cons h run ih =>
    obtain ⟨joint, others⟩ := List.forall_mem_cons.mp joined
    obtain rfl := level h rfl joint
    rw [List.cons_append] at displays
    cases displays with
    | hidden apart =>
      rw [apart h rfl] at joint
      contradiction
    | glyph _ level' later =>
      obtain ⟨after, rfl, behind⟩ := ih later others level'
      exact ⟨after, rfl, behind⟩

theorem ofBytes_head {n : ℕ} {joined : Bool} {bs : Bytes} :
    ∀ h ∈ (Stream.ofBytes l n joined bs).head?, h.location = l ∧ (joined = false → h.joined = false) := by
  induction bs generalizing joined with
  | nil => exact fun h none => nomatch none
  | cons b bs ih =>
    rw [Stream.ofBytes]
    intro h head
    split at head
    · exact ⟨(ih h head).1, fun _ => (ih h head).2 rfl⟩
    · obtain rfl := Option.some.inj head
      exact ⟨rfl, id⟩

theorem ofBytes_displays {n : ℕ} {joined : Bool} {bs : Bytes} (apart : Apart gs)
    (later : Displays left gs) :
    Displays (bs.map (·, l) ++ left) (Stream.ofBytes l n joined bs ++ gs) := by
  have head {joined : Bool} {bs : Bytes} : ∀ h ∈ (Stream.ofBytes l n joined bs ++ gs).head?,
      (h.joined = true → h.location = l) ∧ (joined = false → h.joined = false) := by
    intro h head
    rw [List.head?_append] at head
    rcases Option.or_eq_some_iff.mp head with inner | ⟨_, outer⟩
    · exact ⟨fun _ => (ofBytes_head h inner).1, (ofBytes_head h inner).2⟩
    · rw [apart h outer]
      exact ⟨fun joint => absurd joint Bool.false_ne_true, fun _ => rfl⟩
  induction bs generalizing joined with
  | nil => exact later
  | cons b bs ih =>
    rw [Stream.ofBytes, List.map_cons, List.cons_append]
    by_cases cr : b = Byte.carriageReturn
    · rw [if_pos cr, cr]
      exact .hidden (fun h at_head => (head h at_head).2 rfl) ih
    · rw [if_neg cr]
      exact .glyph (g := ⟨b, l, n, joined⟩) cr (fun h at_head => (head h at_head).1) ih

theorem ofLines_displays {n : ℕ} {ls : List Line} (apart : Apart gs) (later : Displays left gs) :
    Displays (ls.flatMap placedLine ++ left) (Stream.ofLines n ls ++ gs) ∧
      Apart (Stream.ofLines n ls ++ gs) := by
  induction ls generalizing n with
  | nil => exact ⟨later, apart⟩
  | cons line ls ih =>
    obtain ⟨behind, apart'⟩ := ih (n := n + 1)
    rw [Stream.ofLines, List.flatMap_cons, List.append_assoc, List.append_assoc]
    refine ⟨ofBytes_displays apart' behind, fun h head => ?_⟩
    rw [List.head?_append] at head
    rcases Option.or_eq_some_iff.mp head with inner | ⟨_, outer⟩
    · exact (ofBytes_head h inner).2 rfl
    · exact apart' h outer

/-- A scan starts with glyphs that show the whole source. -/
theorem source_displays (p : Program) : Displays p.source (Stream.ofProgram p).glyphs := by
  have visible : Byte.newline ≠ Byte.carriageReturn := by decide
  have supplied : Apart (Stream.supplied p) ∧
      Displays ((Stream.supplied p).map Glyph.spot) (Stream.supplied p) := by
    unfold Stream.supplied
    split
    · exact ⟨(fun h head => nomatch head), .nil⟩
    split
    · exact ⟨(fun h head => nomatch head), .nil⟩
    · refine ⟨fun h head => ?_, .glyph visible (fun h head => nomatch head) .nil⟩
      rw [← Option.some.inj head]
  exact (ofLines_displays supplied.1 supplied.2).1

end Program

namespace Scanner

open Program (Displays seenBytes)

variable {divides : Bool} {finish l : Location} {left : List Spot} {g : Glyph} {gs tail : List Glyph}
  {token : Token} {s t : Scanner}

theorem numberTail_front (stage : Numeral.Stage) (gs : List Glyph) :
    numberTail stage gs <+: bytesOf gs := by
  fun_induction numberTail stage gs with
  | case1 => exact List.prefix_refl _
  | case2 stage g gs joined next stage' ih => exact (List.prefix_cons_inj g.byte).mpr ih
  | case3 => exact List.nil_prefix
  | case4 => exact List.nil_prefix

/-- The text of a number is a glyph and those that are joined to it, up to some point. -/
theorem readNumber_run (ok : (readNumber l g tail).outcome = .ok token) : ∃ run rest,
    tail = run ++ rest ∧ (∀ h ∈ run, h.joined = true) ∧ token.text = bytesOf (g :: run) ∧
      (readNumber l g tail).rest = rest := by
  cases read : Numeral.read? (numberWindow g tail) with
  | none =>
    rw [readNumber_none read] at ok
    cases ok
  | some n =>
    have joined := numeral_length_le read
    have window := Numeral.read?_length_le read
    obtain ⟨k, length⟩ : ∃ k, n.length = k + 1 :=
      ⟨n.length - 1, by have := numeral_length_pos read; omega⟩
    have inside : k ≤ (numberTail (.start g.byte) tail).length := by
      rw [length, numberWindow, List.length_cons] at window
      exact Nat.le_of_succ_le_succ window
    rw [readNumber_some read] at ok ⊢
    obtain rfl := Except.ok.inj ok
    -- The window may go on behind the number, and the row of joined glyphs behind the window.
    refine ⟨tail.take k, tail.drop k, (List.take_append_drop k tail).symm, fun h mem => ?_, ?_, ?_⟩
    · have row := List.prefix_iff_eq_take.mp (List.takeWhile_prefix Glyph.joined (l := tail))
      have mem : h ∈ tail.takeWhile Glyph.joined := by
        rw [row]
        exact List.take_subset_take_left tail (by omega) mem
      exact List.mem_takeWhile_imp mem
    · have front := congrArg (List.take k)
        (List.prefix_iff_eq_take.mp (numberTail_front (.start g.byte) tail))
      rw [List.take_take, Nat.min_eq_left inside] at front
      rw [length, numberWindow, List.take_succ_cons]
      exact congrArg (g.byte :: ·) (front.trans List.map_take.symm)
    · rw [length, List.drop_succ_cons]

/-- A number is read where its lexeme starts. -/
theorem readToken_number_starts (ok : (readToken finish divides gs).outcome = .ok token)
    (number : token.kind = .number) : ∃ g tail, Starts gs g tail ∧
      readToken finish divides gs = readNumber g.location g tail := by
  cases spacing : skipSpacing gs with
  | strayBackslash l rest =>
    rw [readToken, spacing] at ok
    cases ok
  | token rest =>
    rw [readToken_eq spacing] at ok ⊢
    cases rest with
    | nil =>
      cases ok
      cases number
    | cons g tail =>
      refine ⟨g, tail, starts_of_token spacing, ?_⟩
      rcases skipComment_or g tail with same | newline
      · rw [same] at ok ⊢
        exact (readLexeme_number_or divides _ g tail).resolve_right fun other => other token ok number
      · cases after : skipComment (g :: tail) with
        | nil =>
          rw [after] at ok
          cases ok
          cases number
        | cons h hs =>
          rw [after] at ok newline
          rw [readLexeme, if_pos (newline h rfl)] at ok
          cases ok
          cases number

/-- Calls leave part of the glyphs. -/
theorem Leads.suffix (leads : s.Leads t) : t.stream.glyphs <:+ s.stream.glyphs := by
  induction leads with
  | refl => exact List.suffix_refl _
  | tail _ ok ih =>
    obtain ⟨token, stream, _⟩ := of_next_ok ok
    rw [stream]
    exact (readToken_rest_suffix token).trans ih

/-- A number that is read from glyphs stands in the bytes which they show, behind a gap. -/
theorem number_displayed (displays : Displays left gs)
    (ok : (readToken finish divides gs).outcome = .ok token) (number : token.kind = .number) :
    ∃ gap after, left = gap ++ token.text.map (·, token.location) ++ after ∧
      (seenBytes gap).IsGap ∧ Displays after (readToken finish divides gs).rest := by
  obtain ⟨g, tail, starts, read⟩ := readToken_number_starts ok number
  obtain ⟨gap, rfl, is_gap⟩ := starts.behind
  rw [read] at ok ⊢
  obtain ⟨run, rest, rfl, joined, text, at_rest⟩ := readNumber_run ok
  obtain ⟨blanks, _, rfl, at_gap, lexeme⟩ := displays.split
  obtain ⟨returns, _, rfl, hidden, others, level⟩ := lexeme.first
  obtain ⟨after, rfl, behind⟩ := others.joined_run joined level
  have place : token.location = g.location := (readNumber_at _ g _).token token ok
  refine ⟨blanks ++ returns, after, ?_, ?_, by rwa [at_rest]⟩
  · simp [text, place, bytesOf, Glyph.spot]
  · rw [seenBytes, Program.seen_append, hidden, List.append_nil, at_gap, List.map_map]
    exact is_gap

end Scanner

namespace Program

open Scanner (ofProgram)

/-- However far the calls of a scan have come, a number that they give is the value that its text spells,
and the text spells nothing else. The bytes of the text stand in the source together, all in the place of
the token, behind a gap, and the scan goes on right behind them. -/
theorem next_number {p : Program} {s t : Scanner} (leads : (ofProgram p).Leads s)
    (ok : s.next.outcome = .ok t) (number : t.current.kind = .number) :
    (∃ n, Numeral.read? t.current.text = some n ∧ n.number = t.current.value ∧
      n.length = t.current.text.length) ∧
    ∃ before gap after,
      p.source = before ++ (gap ++ t.current.text.map (·, t.current.location) ++ after) ∧
        s.IsBefore (gap ++ t.current.text.map (·, t.current.location) ++ after) ∧
        (seenBytes gap).IsGap ∧ t.IsBefore after := by
  obtain ⟨token, stream, _⟩ := Scanner.of_next_ok ok
  constructor
  · obtain ⟨g, tail, _, read⟩ := Scanner.readToken_number_starts token number
    rw [Scanner.step, read] at token
    obtain ⟨w, n, eq, _, spelled, length⟩ := Scanner.readNumber_ok token
    rw [eq]
    exact ⟨n, spelled, rfl, length⟩
  · obtain ⟨used, split⟩ := Scanner.Leads.suffix leads
    have displays := source_displays p
    change Displays p.source (ofProgram p).stream.glyphs at displays
    rw [← split] at displays
    obtain ⟨before, left, source, _, displays⟩ := displays.split
    obtain ⟨gap, after, rfl, is_gap, behind⟩ := Scanner.number_displayed displays token number
    refine ⟨before, gap, after, source, displays.seen, is_gap, ?_⟩
    rw [Scanner.IsBefore, stream]
    exact behind.seen

/-- A carriage return ends a number, and the digit behind it begins another one. -/
theorem next_number_returned :
    let p := ofUnits ⟨"", 0⟩ [readable ("a.awk", ascii "x = 2.5\r7")]
    ∃ r s t u, (ofProgram p).next.outcome = .ok r ∧ r.next.outcome = .ok s ∧ s.next.outcome = .ok t ∧
      t.current.kind = .number ∧ t.current.text = ascii "2.5" ∧ t.next.outcome = .ok u ∧
      u.current.kind = .number ∧ u.current.text = ascii "7" ∧
      ∃ before gap after,
        p.source = before ++ (gap ++ t.current.text.map (·, t.current.location) ++ after) ∧
          t.IsBefore after := by
  intro p
  obtain ⟨r, s, t, u, first, second, third, number, text, fourth, number', text'⟩ : ∃ r s t u,
      (ofProgram p).next.outcome = .ok r ∧ r.next.outcome = .ok s ∧ s.next.outcome = .ok t ∧
      t.current.kind = .number ∧ t.current.text = ascii "2.5" ∧ t.next.outcome = .ok u ∧
      u.current.kind = .number ∧ u.current.text = ascii "7" :=
    ⟨_, _, _, _, rfl, rfl, rfl, rfl, rfl, rfl, rfl, rfl⟩
  obtain ⟨_, before, gap, after, source, _, _, behind⟩ :=
    next_number (.tail (.single first) second) third number
  exact ⟨r, s, t, u, first, second, third, number, text, fourth, number', text', before, gap, after,
    source, behind⟩

end Program

end AwkCore
