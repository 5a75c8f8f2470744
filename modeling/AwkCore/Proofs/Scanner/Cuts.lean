import AwkCore.Proofs.Numeral
import AwkCore.Proofs.Scanner.Alike
import AwkCore.Scanner.Progress

/-!
# Numbers that are cut

A number is looked for in bytes that are joined. So it is the one token that can differ between two
lists of glyphs that are alike: it comes out shorter, or not at all, where a joint is missing inside
of it. Every other token is alike.
-/
namespace AwkCore

namespace Scanner

variable {L : Location → Location → Prop} {gs hs : List Glyph} {g h : Glyph} {l m : Location}

theorem numberTail_length_le (stage : Numeral.Stage) (gs : List Glyph) :
    (numberTail stage gs).length ≤ (gs.takeWhile Glyph.joined).length := by
  fun_induction numberTail stage gs with
  | case1 => exact Nat.zero_le _
  | case2 stage g gs joined next stage' ih =>
    rw [List.takeWhile_cons, if_pos joined]
    exact Nat.succ_le_succ ih
  | case3 => exact Nat.zero_le _
  | case4 => exact Nat.zero_le _

/-- Where joints are missing the tail of a number ends early. -/
theorem numberTail_take (alike : Alike L gs hs) (stage : Numeral.Stage) :
    numberTail stage hs = (numberTail stage gs).take (hs.takeWhile Glyph.joined).length := by
  induction alike generalizing stage with
  | nil => rfl
  | cons like _ ih =>
    rename_i g h gs hs _
    by_cases joined : h.joined
    · rw [numberTail, numberTail, if_pos joined, if_pos (like.joined joined), like.byte_eq,
        List.takeWhile_cons, if_pos joined]
      cases stage.next? h.byte with
      | none => rfl
      | some next => exact congrArg (h.byte :: ·) (ih next)
    · rw [numberTail, if_neg joined, List.takeWhile_cons, if_neg joined]
      rfl

theorem numberWindow_take (like : g.Like L h) (alike : Alike L gs hs) :
    numberWindow h hs = (numberWindow g gs).take ((hs.takeWhile Glyph.joined).length + 1) := by
  rw [numberWindow, numberWindow, List.take_succ_cons, like.byte_eq, numberTail_take alike]

theorem numberWindow_length_le (g : Glyph) (gs : List Glyph) :
    (numberWindow g gs).length ≤ (gs.takeWhile Glyph.joined).length + 1 :=
  Nat.succ_le_succ (numberTail_length_le _ _)

/-- A token other than a number, or a complaint. -/
def Step.NotNumber (a : Step) : Prop := ∀ t, a.outcome = .ok t → t.kind ≠ .number

theorem Step.NotNumber.plain {kind : Kind} (other : kind ≠ .number) (text : Bytes) :
    (Step.plain kind text l gs).NotNumber := by
  rintro t ⟨⟩
  exact other

theorem Step.NotNumber.refuse (message : String) : (Step.refuse l message gs).NotNumber := by
  rintro t ⟨⟩

theorem readWord_notNumber : (readWord l gs).NotNumber := by
  unfold readWord
  dsimp only
  repeat' split
  all_goals exact .plain (by simp) _

theorem readQuoted_notNumber {d : Delimiter} {kind : Kind} (other : kind ≠ .number) :
    (readQuoted d kind l gs).NotNumber := by
  intro t ok
  simp only [readQuoted] at ok
  split at ok
  · obtain ⟨⟩ := ok
    exact other
  · obtain ⟨⟩ := ok
  · obtain ⟨⟩ := ok

theorem readOperator_notNumber : (readOperator l g gs).NotNumber := by
  unfold readOperator
  dsimp only
  repeat' split
  all_goals first | exact .plain (by simp) _ | exact .refuse _

/-- A token at the front is a number that is looked for in the joined bytes, or else it is alike. -/
theorem readLexeme_cases (divides : Bool) (place : L l m) (like : g.Like L h)
    (alike : Alike L gs hs) :
    (readLexeme divides l (g :: gs) = readNumber l g gs ∧
        readLexeme divides m (h :: hs) = readNumber m h hs) ∨
      ((readLexeme divides l (g :: gs)).Like L (readLexeme divides m (h :: hs)) ∧
        (readLexeme divides l (g :: gs)).NotNumber) := by
  have whole : Alike L (g :: gs) (h :: hs) := .cons like alike
  rw [readLexeme, readLexeme, like.byte_eq]
  split
  · exact .inr ⟨.plain _ _ place alike, .plain (by simp) _⟩
  split
  · exact .inr ⟨readWord_alike place whole, readWord_notNumber⟩
  split
  · exact .inr ⟨readQuoted_alike _ place alike, readQuoted_notNumber (by simp)⟩
  split
  · exact .inl ⟨rfl, rfl⟩
  split
  · exact .inr ⟨readQuoted_alike _ place alike, readQuoted_notNumber (by simp)⟩
  split
  · exact .inr ⟨.refuse _ place alike, .refuse _⟩
  · exact .inr ⟨readOperator_alike place like alike, readOperator_notNumber⟩

/-- A place among some glyphs inside of the number read from them, behind its first byte. -/
def Step.Inside (gs : List Glyph) (a : Step) (p : ℕ) : Prop :=
  ∃ t, a.outcome = .ok t ∧ t.kind = .number ∧
    gs.length < p + a.rest.length + t.text.length ∧ p + a.rest.length < gs.length

theorem Step.NotNumber.not_inside {a : Step} {p : ℕ} (other : a.NotNumber) : ¬ a.Inside gs p := by
  rintro ⟨t, ok, number, _⟩
  exact other t ok number

theorem numeral_length_le {n : Numeral} (h : Numeral.read? (numberWindow g gs) = some n) :
    n.length ≤ (gs.takeWhile Glyph.joined).length + 1 :=
  Nat.le_trans (Numeral.read?_length_le h) (numberWindow_length_le g gs)

theorem readNumber_some {n : Numeral} (h : Numeral.read? (numberWindow g gs) = some n) :
    readNumber l g gs =
      ⟨.ok ⟨.number, (numberWindow g gs).take n.length, n.number, l⟩, [], (g :: gs).drop n.length⟩ := by
  rw [readNumber, h]

theorem readNumber_none (h : Numeral.read? (numberWindow g gs) = none) :
    readNumber l g gs = unexpected l g.byte gs := by
  rw [readNumber, h]

theorem readNumber_inside {n : Numeral} (h : Numeral.read? (numberWindow g gs) = some n) (p : ℕ) :
    (readNumber l g gs).Inside (g :: gs) p ↔ 0 < p ∧ p < n.length := by
  have window := Numeral.read?_length_le h
  have joined := numeral_length_le h
  have all : (gs.takeWhile Glyph.joined).length ≤ gs.length := (List.takeWhile_sublist _).length_le
  rw [readNumber_some h]
  constructor
  · rintro ⟨t, ⟨⟩, _, after, before⟩
    simp only [List.length_drop, List.length_cons, List.length_take] at after before
    omega
  · intro inside
    refine ⟨_, rfl, rfl, ?_, ?_⟩
    · simp only [List.length_drop, List.length_cons, List.length_take]
      omega
    · simp only [List.length_drop, List.length_cons]
      omega

section TakeWhile

variable {α : Type} {p : α → Bool} {l : List α} {a : α}

theorem takeWhile_here {i : ℕ} (h : l[i]? = some a) (lt : i < (l.takeWhile p).length) :
    p a = true := by
  induction l generalizing i with
  | nil => simp at h
  | cons b l ih =>
    by_cases hb : p b
    · cases i with
      | zero => exact Option.some.inj h ▸ hb
      | succ i =>
        rw [List.takeWhile_cons, if_pos hb] at lt
        exact ih h (Nat.lt_of_succ_lt_succ lt)
    · rw [List.takeWhile_cons, if_neg hb] at lt
      exact absurd lt (Nat.not_lt_zero i)

theorem takeWhile_stop (h : (l.takeWhile p).length < l.length) :
    ∃ a, l[(l.takeWhile p).length]? = some a ∧ p a = false := by
  induction l with
  | nil => exact absurd h (Nat.lt_irrefl 0)
  | cons b l ih =>
    by_cases hb : p b
    · rw [List.takeWhile_cons, if_pos hb] at h ⊢
      exact ih (Nat.lt_of_succ_lt_succ h)
    · rw [List.takeWhile_cons, if_neg hb]
      exact ⟨b, rfl, by simpa using hb⟩

end TakeWhile

/-- A number is cut where a joint inside of it is missing in the other glyphs. -/
def Step.Cut (gs hs : List Glyph) (a : Step) : Prop :=
  ∃ p h, a.Inside gs p ∧ hs[p]? = some h ∧ h.joined = false

theorem Step.NotNumber.not_cut {a : Step} (other : a.NotNumber) : ¬ a.Cut gs hs := by
  rintro ⟨p, _, inside, _⟩
  exact other.not_inside inside

theorem readNumber_cut (alike : Alike L gs hs) {n : Numeral}
    (read : Numeral.read? (numberWindow g gs) = some n) :
    (readNumber l g gs).Cut (g :: gs) (h :: hs) ↔
      (hs.takeWhile Glyph.joined).length + 1 < n.length := by
  have joined := numeral_length_le read
  have all : (gs.takeWhile Glyph.joined).length ≤ gs.length := (List.takeWhile_sublist _).length_le
  have length := alike.length_eq
  constructor
  · rintro ⟨p, h', inside, at_p, loose⟩
    obtain ⟨pos, lt⟩ := (readNumber_inside read p).mp inside
    obtain ⟨i, rfl⟩ : ∃ i, p = i + 1 := ⟨p - 1, by omega⟩
    rw [List.getElem?_cons_succ] at at_p
    have not_before : ¬ i < (hs.takeWhile Glyph.joined).length := by
      intro before
      rw [takeWhile_here at_p before] at loose
      contradiction
    omega
  · intro short
    obtain ⟨h', at_stop, loose⟩ := takeWhile_stop (p := Glyph.joined) (l := hs) (by omega)
    exact ⟨_, h', (readNumber_inside read _).mpr ⟨Nat.succ_pos _, short⟩, at_stop, loose⟩

abbrev Lexeme := Kind × Bytes × Binary64

end Scanner

/-- What a token is apart from its place. -/
def Token.lexeme (t : Token) : Scanner.Lexeme := (t.kind, t.text, t.value)

/-- The complaint of a failure apart from its place. -/
def Failure.complaint : Failure → String
  | lexical _ message => message
  | failure => failure.message

namespace Scanner

def lexemeOf : Except Failure Token → Except String Lexeme
  | .ok t => .ok t.lexeme
  | .error failure => .error failure.complaint

/-- A number reads alike unless it is cut, and a number that is cut never does. -/
theorem readNumber_cases (place : L l m) (like : g.Like L h) (alike : Alike L gs hs) :
    (¬ (readNumber l g gs).Cut (g :: gs) (h :: hs) ∧
        (readNumber l g gs).Like L (readNumber m h hs)) ∨
      ((readNumber l g gs).Cut (g :: gs) (h :: hs) ∧
        lexemeOf (readNumber l g gs).outcome ≠ lexemeOf (readNumber m h hs).outcome) := by
  have window := numberWindow_take like alike
  have whole : Alike L (g :: gs) (h :: hs) := .cons like alike
  cases read : Numeral.read? (numberWindow g gs) with
  | none =>
    have read' : Numeral.read? (numberWindow h hs) = none := by
      rw [window]
      exact Numeral.read?_take_none read
    rw [readNumber_none read, readNumber_none read', like.byte_eq]
    exact .inl ⟨(Step.NotNumber.refuse _).not_cut, unexpected_alike _ place alike⟩
  | some n =>
    rw [readNumber_cut alike read]
    have length := Numeral.read?_length_le read
    by_cases short : (hs.takeWhile Glyph.joined).length + 1 < n.length
    · refine .inr ⟨short, ?_⟩
      rw [readNumber_some read]
      cases read' : Numeral.read? (numberWindow h hs) with
      | none =>
        rw [readNumber_none read']
        simp [lexemeOf, unexpected, Step.refuse]
      | some n' =>
        rw [readNumber_some read']
        intro same
        simp only [lexemeOf, Token.lexeme, Except.ok.injEq, Prod.mk.injEq] at same
        have lengths := congrArg List.length same.2.1
        have window' := numberWindow_length_le h hs
        simp only [List.length_take] at lengths
        omega
    · have le : n.length ≤ (hs.takeWhile Glyph.joined).length + 1 := Nat.not_lt.mp short
      have read' : Numeral.read? (numberWindow h hs) = some n := by
        rw [window]
        exact Numeral.read?_take read le
      refine .inl ⟨short, ?_⟩
      rw [readNumber_some read, readNumber_some read', window, List.take_take, Nat.min_eq_left le]
      exact ⟨.token ⟨rfl, rfl, rfl, place⟩, .nil, List.forall₂_drop _ whole⟩

theorem readNumber_joined {p : ℕ} {g' : Glyph} (inside : (readNumber l g gs).Inside (g :: gs) p)
    (at_p : (g :: gs)[p]? = some g') : g'.joined = true := by
  cases read : Numeral.read? (numberWindow g gs) with
  | none =>
    rw [readNumber_none read] at inside
    exact absurd inside (Step.NotNumber.refuse _).not_inside
  | some n =>
    obtain ⟨pos, lt⟩ := (readNumber_inside read p).mp inside
    obtain ⟨i, rfl⟩ : ∃ i, p = i + 1 := ⟨p - 1, by omega⟩
    have joined := numeral_length_le read
    rw [List.getElem?_cons_succ] at at_p
    exact takeWhile_here at_p (by omega)

theorem readNumber_fits {t : Token} (ok : (readNumber l g gs).outcome = .ok t) :
    (readNumber l g gs).rest.length + t.text.length ≤ (g :: gs).length := by
  cases read : Numeral.read? (numberWindow g gs) with
  | none =>
    rw [readNumber_none read] at ok
    obtain ⟨⟩ := ok
  | some n =>
    have joined := numeral_length_le read
    have all : (gs.takeWhile Glyph.joined).length ≤ gs.length := (List.takeWhile_sublist _).length_le
    rw [readNumber_some read] at ok ⊢
    obtain ⟨⟩ := ok
    simp only [List.length_drop, List.length_cons, List.length_take]
    omega

theorem readLexeme_number_or (divides : Bool) (l : Location) (g : Glyph) (gs : List Glyph) :
    readLexeme divides l (g :: gs) = readNumber l g gs ∨ (readLexeme divides l (g :: gs)).NotNumber := by
  have same (g : Glyph) : g.Like Eq g := ⟨rfl, rfl, id⟩
  have alike : Alike Eq gs gs := List.forall₂_same.mpr fun g _ => same g
  rcases readLexeme_cases divides (rfl : l = l) (same g) alike with ⟨number, _⟩ | ⟨_, other⟩
  · exact .inl number
  · exact .inr other

section Append

variable {before before' after after' : List Glyph} {a : Step} {p : ℕ}

theorem Step.inside_append
    (fits : ∀ t, a.outcome = .ok t → a.rest.length + t.text.length ≤ after.length) :
    a.Inside (before ++ after) p ↔ before.length ≤ p ∧ a.Inside after (p - before.length) := by
  constructor
  · rintro ⟨t, ok, number, start, stop⟩
    have length := fits t ok
    rw [List.length_append] at start stop
    exact ⟨by omega, t, ok, number, by omega, by omega⟩
  · rintro ⟨le, t, ok, number, start, stop⟩
    refine ⟨t, ok, number, ?_, ?_⟩
    · rw [List.length_append]
      omega
    · rw [List.length_append]
      omega

theorem Step.cut_append (length : before.length = before'.length)
    (fits : ∀ t, a.outcome = .ok t → a.rest.length + t.text.length ≤ after.length) :
    a.Cut (before ++ after) (before' ++ after') ↔ a.Cut after after' := by
  constructor
  · rintro ⟨p, h, inside, at_p, loose⟩
    obtain ⟨le, inside⟩ := (inside_append fits).mp inside
    rw [List.getElem?_append_right (by omega), ← length] at at_p
    exact ⟨_, h, inside, at_p, loose⟩
  · rintro ⟨p, h, inside, at_p, loose⟩
    refine ⟨before.length + p, h, (inside_append fits).mpr ⟨by omega, ?_⟩, ?_, loose⟩
    · rwa [Nat.add_sub_cancel_left]
    · rwa [List.getElem?_append_right (by omega), ← length, Nat.add_sub_cancel_left]

end Append

/-- A number token is read from the glyphs that stand behind some others. -/
theorem readToken_number {divides : Bool} {finish : Location} {t : Token}
    (ok : (readToken finish divides gs).outcome = .ok t) (number : t.kind = .number) :
    ∃ before l g after, gs = before ++ g :: after ∧
      readToken finish divides gs = readNumber l g after := by
  obtain ⟨l, after, ⟨before, at_gs⟩, eq⟩ := readToken_behind ok
  rw [eq] at ok ⊢
  cases after with
  | nil =>
    cases ok
    contradiction
  | cons g after =>
    refine ⟨before, l, g, after, at_gs.symm, ?_⟩
    rcases readLexeme_number_or divides l g after with same | other
    · exact same
    · exact absurd number (other t ok)

theorem readToken_fits {divides : Bool} {finish : Location} {t : Token}
    (ok : (readToken finish divides gs).outcome = .ok t) (number : t.kind = .number) :
    (readToken finish divides gs).rest.length + t.text.length ≤ gs.length := by
  obtain ⟨before, l, g, after, eq, same⟩ := readToken_number ok number
  rw [same] at ok ⊢
  have length := readNumber_fits ok
  rw [eq, List.length_append]
  omega

theorem readToken_joined {divides : Bool} {finish : Location} {p : ℕ}
    (inside : (readToken finish divides gs).Inside gs p) (at_p : gs[p]? = some g) :
    g.joined = true := by
  have within := inside
  obtain ⟨t, ok, number, _⟩ := within
  obtain ⟨before, l, first, after, eq, same⟩ := readToken_number ok number
  rw [same, eq] at inside
  obtain ⟨le, inside⟩ := (Step.inside_append fun t ok => readNumber_fits ok).mp inside
  rw [eq, List.getElem?_append_right le] at at_p
  exact readNumber_joined inside at_p

/-- A token reads alike unless it is a number that is cut, and a number that is cut never does. -/
theorem readToken_cases {divides : Bool} {finish finish' : Location} (place : L finish finish')
    (alike : Alike L gs hs) :
    (¬ (readToken finish divides gs).Cut gs hs ∧
        (readToken finish divides gs).Like L (readToken finish' divides hs)) ∨
      ((readToken finish divides gs).Cut gs hs ∧
        lexemeOf (readToken finish divides gs).outcome ≠
          lexemeOf (readToken finish' divides hs).outcome) := by
  have spacing := skipSpacing_alike alike
  generalize eq : skipSpacing gs = a at spacing
  generalize eq' : skipSpacing hs = b at spacing
  cases spacing with
  | strayBackslash at_slash rest =>
    rw [readToken, readToken, eq, eq']
    exact .inl ⟨(Step.NotNumber.refuse _).not_cut, .refuse _ at_slash rest⟩
  | token rest =>
    rename_i gs' hs'
    rw [readToken_eq eq, readToken_eq eq']
    have here := placeOf_alike place rest
    have comment := skipComment_alike rest
    obtain ⟨before, at_gs⟩ := (skipComment_suffix gs').trans (skipSpacing_suffix eq)
    obtain ⟨before', at_hs⟩ := (skipComment_suffix hs').trans (skipSpacing_suffix eq')
    have length : before.length = before'.length := by
      have whole := alike.length_eq
      have part := comment.length_eq
      rw [← at_gs, ← at_hs, List.length_append, List.length_append] at whole
      omega
    rw [← at_gs, ← at_hs]
    generalize skipComment gs' = cs at comment
    generalize skipComment hs' = ds at comment
    cases comment with
    | nil => exact .inl ⟨(Step.NotNumber.plain (by simp) _).not_cut, .plain _ _ here .nil⟩
    | cons like alike =>
      rcases readLexeme_cases divides here like alike with ⟨number, number'⟩ | ⟨same, other⟩
      · rw [number, number', Step.cut_append length fun t ok => readNumber_fits ok]
        exact readNumber_cases here like alike
      · exact .inl ⟨other.not_cut, same⟩

end Scanner

end AwkCore
