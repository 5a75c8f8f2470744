import AwkCore.Proofs.Scanner.Rendered
import AwkCore.Proofs.Scanner.Slashes

/-!
# The longest operator

Two stars are looked for first, then a pair of bytes, then a single byte. What is found is the longest
operator at the front, so that a run of operator bytes is split greedily from the left. The run is left
where no operator is at the front, and at a slash that opens a regular expression.
-/
namespace AwkCore

open Vocabulary (single? pair? StartsOperator)

namespace Operator

/-- An operator is spelled at the front of some bytes, and none is with more of them. -/
structure Longest (o : Operator) (w bs : Bytes) : Prop where
  spelled : o.Spelled w
  front : w <+: bs
  longest : ∀ o' w', Spelled o' w' → w' <+: bs → w'.length ≤ w.length

/-- No operator is spelled at the front of some bytes. -/
def NoneAt (bs : Bytes) : Prop := ∀ o w, Spelled o w → ¬ w <+: bs

/-- A byte makes no operator together with those behind it. -/
def Alone (a : Byte) (more : Bytes) : Prop :=
  ∀ b ∈ more.head?, pair? a b = none ∧ ¬ (a = 0x2a ∧ b = 0x2a)

variable {o o' : Operator} {a b : Byte} {w w' more bs : Bytes}

theorem Spelled.unique (spelled : o.Spelled w) (spelled' : o'.Spelled w) : o = o' := by
  have stars : pair? 0x2a 0x2a = none := by decide
  cases spelled.found with
  | single found =>
    cases spelled'.found with
    | single found' => exact Option.some.inj (found.symm.trans found')
  | pair found =>
    cases spelled'.found with
    | pair found' => exact Option.some.inj (found.symm.trans found')
    | stars => cases stars.symm.trans found
  | stars =>
    cases spelled'.found with
    | pair found' => cases stars.symm.trans found'
    | stars => rfl
  | starsAssign =>
    cases spelled'.found
    rfl

/-- There is only one longest operator. -/
theorem Longest.unique (longest : o.Longest w bs) (longest' : o'.Longest w' bs) :
    o = o' ∧ w = w' := by
  have length := Nat.le_antisymm (longest'.longest o w longest.spelled longest.front)
    (longest.longest o' w' longest'.spelled longest'.front)
  obtain rfl : w = w' :=
    (List.prefix_of_prefix_length_le longest.front longest'.front length.le).eq_of_length length
  exact ⟨longest.spelled.unique longest'.spelled, rfl⟩

theorem Spelled.length_le (spelled : o.Spelled w) : w.length ≤ 3 := by
  cases spelled.found <;> simp

/-- The one operator of three bytes is a power that assigns. -/
theorem Spelled.length_le_two (spelled : o.Spelled w) (front : w <+: bs)
    (other : ¬ [0x2a, 0x2a, 0x3d] <+: bs) : w.length ≤ 2 := by
  cases spelled.found with
  | starsAssign => exact absurd front other
  | _ => simp

theorem Spelled.eq_single (spelled : o.Spelled w) (front : w <+: a :: more) (alone : Alone a more) :
    w = [a] ∧ single? a = some o := by
  obtain ⟨rest, split⟩ := front
  cases spelled.found with
  | single found =>
    obtain ⟨rfl, _⟩ := List.cons.inj split
    exact ⟨rfl, found⟩
  | pair found =>
    obtain ⟨rfl, rfl⟩ := List.cons.inj split
    cases (alone _ rfl).1.symm.trans found
  | stars =>
    obtain ⟨rfl, rfl⟩ := List.cons.inj split
    exact absurd ⟨rfl, rfl⟩ (alone _ rfl).2
  | starsAssign =>
    obtain ⟨rfl, rfl⟩ := List.cons.inj split
    exact absurd ⟨rfl, rfl⟩ (alone _ rfl).2

theorem longest_pair (found : pair? a b = some o) : o.Longest [a, b] (a :: b :: more) := by
  have star : ¬ (a = 0x2a ∧ b = 0x2a) := by
    rintro ⟨rfl, rfl⟩
    revert found
    decide +revert
  constructor
  case spelled => exact Found.spelled (.pair found)
  case front => exact List.prefix_append [a, b] more
  case longest =>
    intro o' w' spelled front
    refine spelled.length_le_two front fun stars => star ?_
    obtain ⟨rest, split⟩ := stars
    obtain ⟨first, split⟩ := List.cons.inj split
    exact ⟨first.symm, (List.cons.inj split).1.symm⟩

theorem longest_single (found : single? a = some o) (alone : Alone a more) :
    o.Longest [a] (a :: more) := by
  constructor
  case spelled => exact Found.spelled (.single found)
  case front => exact List.prefix_append [a] more
  case longest =>
    intro o' w' spelled front
    rw [(spelled.eq_single front alone).1]

theorem longest_stars (other : more.head? ≠ some 0x3d) :
    Operator.power.Longest [0x2a, 0x2a] (0x2a :: 0x2a :: more) := by
  constructor
  case spelled => exact .stars
  case front => exact List.prefix_append [0x2a, 0x2a] more
  case longest =>
    intro o' w' spelled front
    refine spelled.length_le_two front ?_
    rintro ⟨rest, split⟩
    exact other (congrArg List.head? (List.cons.inj (List.cons.inj split).2).2.symm)

theorem longest_starsAssign :
    Operator.powerAssign.Longest [0x2a, 0x2a, 0x3d] (0x2a :: 0x2a :: 0x3d :: more) := by
  constructor
  case spelled => exact .starsAssign
  case front => exact List.prefix_append [0x2a, 0x2a, 0x3d] more
  case longest => exact fun o' w' spelled _ => spelled.length_le

theorem noneAt_of_alone (none : single? a = none) (alone : Alone a more) : NoneAt (a :: more) := by
  intro o w spelled front
  cases none.symm.trans (spelled.eq_single front alone).2

theorem Longest.not_noneAt (longest : o.Longest w bs) : ¬ NoneAt bs :=
  fun none => none o w longest.spelled longest.front

end Operator

/-- Every byte of an operator can start one. -/
theorem Operator.Spelled.all_start {o : Operator} {w : Bytes} (spelled : o.Spelled w) :
    ∀ b ∈ w, StartsOperator b := by
  have all : w.all (fun b => decide (StartsOperator b)) = true := by
    cases spelled with
    | own => cases o <;> decide
    | stars => decide
    | starsAssign => decide
  simpa using all

namespace Scanner

open Operator (Longest NoneAt Alone)

variable {l : Location} {g h : Glyph} {gs : List Glyph} {s t : Scanner} {run rest : Bytes}

theorem readOperator_alone (l : Location) (alone : Alone g.byte (bytesOf gs)) : readOperator l g gs =
    (single? g.byte).elim (unexpected l g.byte gs) fun o => .plain (.operator o) [g.byte] l gs := by
  cases gs with
  | nil => cases lone : single? g.byte <;> simp [readOperator, bytesOf, lone]
  | cons h hs =>
    obtain ⟨no_pair, stars⟩ := alone h.byte rfl
    cases lone : single? g.byte <;> simp [readOperator, bytesOf, no_pair, stars, lone]

/-- Two stars are read with an equals sign if one stands behind them. -/
theorem readOperator_stars (l : Location) (first : g.byte = 0x2a) (second : h.byte = 0x2a)
    (gs : List Glyph) : ∃ o w, o.Longest (g.byte :: w) (bytesOf (g :: h :: gs)) ∧
      readOperator l g (h :: gs) = .plain (.operator o) (g.byte :: w) l ((h :: gs).drop w.length) := by
  by_cases assign : (bytesOf gs).head? = some 0x3d
  · obtain ⟨more, bytes⟩ := List.head?_eq_some_iff.mp assign
    obtain ⟨k, ks, rfl, third, rfl⟩ := bytesOf_eq_cons bytes
    refine ⟨.powerAssign, [0x2a, 0x3d], ?_, ?_⟩
    · rw [bytesOf, List.map_cons, List.map_cons, List.map_cons, first, second, third]
      exact Operator.longest_starsAssign
    · simp [readOperator, bytesOf, first, second, third]
  · have other : (gs.map Glyph.byte).take 1 ≠ [0x3d] := by
      intro equals
      cases gs with
      | nil => cases equals
      | cons k ks => exact assign (congrArg List.head? equals)
    refine ⟨.power, [0x2a], ?_, ?_⟩
    · rw [bytesOf, List.map_cons, List.map_cons, first, second]
      exact Operator.longest_stars assign
    · simp [readOperator, bytesOf, first, second, other]

/-- The longest operator at the front is read, unless there is none. -/
theorem readOperator_longest (l : Location) (g : Glyph) (gs : List Glyph) :
    (∃ o w, o.Longest (g.byte :: w) (bytesOf (g :: gs)) ∧
      readOperator l g gs = .plain (.operator o) (g.byte :: w) l (gs.drop w.length)) ∨
    (NoneAt (bytesOf (g :: gs)) ∧ readOperator l g gs = unexpected l g.byte gs) := by
  by_cases alone : Alone g.byte (bytesOf gs)
  · have read := readOperator_alone l alone
    cases found : single? g.byte with
    | some o =>
      rw [found] at read
      exact .inl ⟨o, [], Operator.longest_single found alone, read⟩
    | none =>
      rw [found] at read
      exact .inr ⟨Operator.noneAt_of_alone found alone, read⟩
  left
  cases gs with
  | nil => exact absurd (fun b none => nomatch none) alone
  | cons h hs =>
    by_cases stars : g.byte = 0x2a ∧ h.byte = 0x2a
    · exact readOperator_stars l stars.1 stars.2 hs
    · obtain ⟨o, found⟩ : ∃ o, pair? g.byte h.byte = some o := by
        refine Option.ne_none_iff_exists'.mp fun no_pair => alone fun b head => ?_
        obtain rfl := Option.some.inj head
        exact ⟨no_pair, stars⟩
      refine ⟨o, [h.byte], Operator.longest_pair found, ?_⟩
      simp [readOperator, bytesOf, stars, found]

/-- An operator may start at the front of what a scanner has left: a byte stands there that starts no
other token, and a slash divides. -/
structure AtOperator (s : Scanner) (g : Glyph) (gs : List Glyph) : Prop where
  front : s.stream.glyphs = g :: gs
  start : StartsOperator g.byte
  slash : g.byte = Delimiter.slash.byte → s.current.kind.producesValue = true

/-- A call gives the longest operator at the front and uses it. It fails exactly if there is none. -/
structure ReadsLongest (s : Scanner) (g : Glyph) : Prop where
  token : ∀ (o : Operator) (w : Bytes), o.Longest w (bytesOf s.stream.glyphs) →
    ∃ t, s.next.outcome = .ok t ∧ t.current = ⟨.operator o, w, Binary64.zero, g.location⟩ ∧
      t.stream = { s.stream with glyphs := s.stream.glyphs.drop w.length }
  complaint : s.next.outcome =
      .error (.lexical g.location ("Unexpected token '" ++ Utf8.lossy [g.byte] ++ "'")) ↔
    NoneAt (bytesOf s.stream.glyphs)
  either : (∃ (o : Operator) (w : Bytes), o.Longest w (bytesOf s.stream.glyphs)) ∨
    NoneAt (bytesOf s.stream.glyphs)

theorem AtOperator.step (at_front : s.AtOperator g gs) : s.step = readOperator g.location g gs := by
  obtain ⟨_, _, _, _, _, _, blank, backslash, mark⟩ := at_front.start
  rw [Scanner.step, at_front.front, readToken_solid ⟨blank, backslash, mark⟩,
    readLexeme_operator at_front.start at_front.slash]

theorem AtOperator.readsLongest (at_front : s.AtOperator g gs) (readable : s.Readable) :
    s.ReadsLongest g := by
  have front := at_front.front
  rcases readOperator_longest g.location g gs with ⟨o, w, longest, read⟩ | ⟨none, read⟩
  · rw [← at_front.step] at read
    rw [← front] at longest
    have ok := readable.next_ok (congrArg Step.outcome read)
    constructor
    case token =>
      intro o' w' longest'
      obtain ⟨rfl, rfl⟩ := longest.unique longest'
      refine ⟨_, ok, rfl, ?_⟩
      rw [read, front]
      rfl
    case complaint =>
      refine iff_of_false (fun error => ?_) longest.not_noneAt
      cases ok.symm.trans error
    case either => exact .inl ⟨o, _, longest⟩
  · rw [← at_front.step] at read
    rw [← front] at none
    constructor
    case token => exact fun o w longest => absurd none longest.not_noneAt
    case complaint =>
      refine iff_of_true ?_ none
      rw [readable.next_outcome, read]
      rfl
    case either => exact .inr none

/-- Calls give operators one after another. Each of them is the longest at the front of what is left, and
is used. -/
inductive Munches : Scanner → List (Operator × Bytes) → Scanner → Prop
  | done {s : Scanner} : Munches s [] s
  | more {s t u : Scanner} {o : Operator} {w : Bytes} {l : Location} {os : List (Operator × Bytes)}
      (longest : o.Longest w (bytesOf s.stream.glyphs)) (ok : s.next.outcome = .ok t)
      (token : t.current = ⟨.operator o, w, Binary64.zero, l⟩)
      (used : t.stream.glyphs = s.stream.glyphs.drop w.length) (later : Munches t os u) :
    Munches s ((o, w) :: os) u

/-- Where a run of operator bytes is left: at its end, at a slash that opens a regular expression, or
where no operator is at the front, so that the next call fails. -/
inductive Leaves (s : Scanner) (rest : Bytes) : Bytes → Prop
  | ended : Leaves s rest []
  | regex {left : Bytes} (opens : s.current.kind.producesValue = false) :
    Leaves s rest (Delimiter.slash.byte :: left)
  | stuck {left : Bytes} {failure : Failure} (none : NoneAt (left ++ rest))
      (error : s.next.outcome = .error failure) : Leaves s rest left

/-- An operator at the front of a run is part of the run. -/
theorem within_run {o : Operator} {w : Bytes} (spelled : o.Spelled w) (front : w <+: run ++ rest)
    (stop : ∀ b ∈ rest.head?, ¬ StartsOperator b) : ∃ left, run = w ++ left := by
  obtain ⟨behind, split⟩ := front
  rcases List.append_eq_append_iff.mp split with ⟨left, eq, _⟩ | ⟨beyond, eq, at_rest⟩
  · exact ⟨left, eq⟩
  · cases beyond with
    | nil => exact ⟨[], by simpa using eq.symm⟩
    | cons b beyond =>
      have start := spelled.all_start b (by simp [eq])
      exact absurd start (stop b (by simp [at_rest]))

theorem munches_run (readable : s.Readable) (bytes : bytesOf s.stream.glyphs = run ++ rest)
    (starts : ∀ b ∈ run, StartsOperator b) (stop : ∀ b ∈ rest.head?, ¬ StartsOperator b) :
    ∃ os t left, s.Munches os t ∧ run = os.flatMap Prod.snd ++ left ∧
      bytesOf t.stream.glyphs = left ++ rest ∧ t.Leaves rest left := by
  -- An operator that is read is part of the run, and what is left of the run is shorter by it.
  induction length : run.length using Nat.strong_induction_on generalizing s run with
  | _ n ih =>
    cases run with
    | nil => exact ⟨[], s, [], .done, rfl, bytes, .ended⟩
    | cons b run =>
      obtain ⟨g, gs, front, rfl, _⟩ := bytesOf_eq_cons bytes
      by_cases slash : g.byte = Delimiter.slash.byte → s.current.kind.producesValue = true
      · have at_front : s.AtOperator g gs := ⟨front, starts _ List.mem_cons_self, slash⟩
        have reads := at_front.readsLongest readable
        rcases reads.either with ⟨o, w, longest⟩ | none
        · obtain ⟨t, ok, token, stream⟩ := reads.token o w longest
          obtain ⟨left, eq⟩ := within_run longest.spelled (bytes ▸ longest.front) stop
          obtain ⟨b, bs, rfl, _⟩ := longest.spelled.starts
          rw [eq] at bytes starts length ⊢
          have behind : bytesOf t.stream.glyphs = left ++ rest := by
            rw [stream]
            rw [List.append_assoc] at bytes
            exact bytesOf_drop bytes
          have t_readable : t.Readable := by rwa [Readable, stream]
          obtain ⟨os, u, left, munches, rfl, at_u, leaves⟩ := ih left.length
            (by simp only [← length, List.length_append, List.length_cons]; omega) t_readable behind
            (fun b mem => starts b (List.mem_append_right _ mem)) rfl
          refine ⟨_, u, left, .more longest ok token (congrArg Stream.glyphs stream) munches, ?_,
            at_u, leaves⟩
          rw [List.flatMap_cons, List.append_assoc]
        · exact ⟨[], s, _, .done, rfl, bytes, .stuck (bytes ▸ none) (reads.complaint.mpr none)⟩
      · obtain ⟨is_slash, opens⟩ := Classical.not_imp.mp slash
        rw [is_slash] at bytes ⊢
        exact ⟨[], s, _, .done, rfl, bytes, .regex (Bool.eq_false_iff.mpr opens)⟩

/-- Where an operator may start, a call gives the longest one at the front and uses just that, and it
fails exactly if there is none. So calls split a run of operator bytes greedily from the left, up to its
end, to a slash that opens a regular expression, or to a byte with which no operator is at the front. -/
theorem next_longest (readable : s.Readable) :
    (∀ g gs, s.AtOperator g gs → s.ReadsLongest g) ∧
    let bs := bytesOf s.stream.glyphs
    let rest := bs.dropWhile fun b => decide (StartsOperator b)
    ∃ os t left, s.Munches os t ∧
      bs.takeWhile (fun b => decide (StartsOperator b)) = os.flatMap Prod.snd ++ left ∧
        bytesOf t.stream.glyphs = left ++ rest ∧ t.Leaves rest left := by
  refine ⟨fun g gs at_front => at_front.readsLongest readable, ?_⟩
  intro bs rest
  refine munches_run readable List.takeWhile_append_dropWhile.symm ?_ ?_
  · intro b mem
    simpa using List.mem_takeWhile_imp mem
  · intro b head
    have stop := List.head?_dropWhile_not (fun b => decide (StartsOperator b)) bs
    rw [head] at stop
    simpa using stop

/-- A run of stars and more, with a carriage return inside. -/
theorem next_longest_stars :
    let s := ofProgram (Program.inline (ascii "**\r*=!~= x"))
    s.Readable ∧ s.ReadsLongest ⟨0x2a, ⟨inlineName, 1⟩, 1, false⟩ ∧
      ∃ t, s.Munches [(.power, ascii "**"), (.timesAssign, ascii "*="), (.notMatching, ascii "!~"),
        (.assign, ascii "=")] t ∧ t.Leaves (ascii " x\n") [] := by
  intro s
  have reads {s : Scanner} {g : Glyph} {gs : List Glyph} {l : Location}
      (ending : s.stream.ending = .ok l) (front : s.stream.glyphs = g :: gs)
      (start : StartsOperator g.byte) (other : g.byte ≠ Delimiter.slash.byte) : s.ReadsLongest g :=
    (next_longest ⟨l, ending⟩).1 g gs ⟨front, start, fun slash => absurd slash other⟩
  have munch {s : Scanner} {g : Glyph} {o : Operator} {w : Bytes} (reads : s.ReadsLongest g)
      (longest : o.Longest w (bytesOf s.stream.glyphs)) :
      ∃ t : Scanner, t.stream = { s.stream with glyphs := s.stream.glyphs.drop w.length } ∧
        ∀ os u, t.Munches os u → s.Munches ((o, w) :: os) u := by
    obtain ⟨t, ok, token, stream⟩ := reads.token o w longest
    exact ⟨t, stream, fun os u => .more longest ok token (congrArg Stream.glyphs stream)⟩
  have first : s.ReadsLongest ⟨0x2a, ⟨inlineName, 1⟩, 1, false⟩ :=
    reads rfl rfl (by decide) (by decide)
  obtain ⟨s₁, stream₁, munch₁⟩ := munch (o := .power) (w := ascii "**") first
    (Operator.longest_stars (by decide))
  obtain ⟨s₂, stream₂, munch₂⟩ := munch (o := .timesAssign) (w := ascii "*=")
    (reads (by rw [stream₁]; rfl) (by rw [stream₁]; rfl) (by decide) (by decide))
    (by rw [stream₁]; exact Operator.longest_pair rfl)
  rw [stream₁] at stream₂
  obtain ⟨s₃, stream₃, munch₃⟩ := munch (o := .notMatching) (w := ascii "!~")
    (reads (by rw [stream₂]; rfl) (by rw [stream₂]; rfl) (by decide) (by decide))
    (by rw [stream₂]; exact Operator.longest_pair rfl)
  rw [stream₂] at stream₃
  obtain ⟨s₄, _, munch₄⟩ := munch (o := .assign) (w := ascii "=")
    (reads (by rw [stream₃]; rfl) (by rw [stream₃]; rfl) (by decide) (by decide))
    (by rw [stream₃]; exact Operator.longest_single rfl (by rintro b ⟨⟩; decide))
  exact ⟨⟨_, rfl⟩, first, s₄, munch₁ _ _ (munch₂ _ _ (munch₃ _ _ (munch₄ _ _ .done))), .ended⟩

end Scanner

end AwkCore
