import AwkCore.Proofs.Program.Faces

/-!
# Carriage returns

A program reads as if its carriage returns were not there, but for two places where they show. One
that stands at the end of the text is the last byte read, so a line feed is supplied after it even
if another one comes before it. And one that stands inside of a number ends the number.
-/
namespace AwkCore.Program

def stripped (text : Bytes) : Bytes := text.filter (· ≠ Byte.carriageReturn)

/-- A text without its carriage returns, and with the line feed that one at the end brings about. -/
def mended (text : Bytes) : Bytes :=
  if text.getLast? = some Byte.carriageReturn ∧ (stripped text).getLast? = some Byte.newline then
    stripped text ++ [Byte.newline]
  else stripped text

/-- Where the carriage returns of a text stand among its other bytes. -/
def returns : Bytes → List ℕ
  | [] => []
  | b :: bs => if b = Byte.carriageReturn then 0 :: returns bs else (returns bs).map (· + 1)

/-- A carriage return gives up the joint between its neighbours. The text may come after a joint that
is given up already. -/
theorem loosened_stripped (joined joined' : Bool) (weaker : joined' = true → joined = true)
    (text : Bytes) :
    Loosened (faces joined (stripped text)) (faces joined' text)
      (if joined = joined' then returns text else 0 :: returns text) := by
  induction text generalizing joined joined' with
  | nil =>
    split
    · exact Loosened.refl []
    · exact (Loosened.refl []).zero fun a h => nomatch h
  | cons b bs ih =>
    by_cases cr : b = Byte.carriageReturn
    · have rest := ih joined false (by simp)
      have skip : stripped (b :: bs) = stripped bs := by simp [stripped, cr]
      rw [skip, faces, if_pos cr, returns, if_pos cr]
      cases joined with
      | false =>
        have eq : joined' = false := by simpa using weaker
        rw [eq]
        exact rest.zero fun a => faces_head _
      | true =>
        cases joined' with
        | false => exact rest.congr fun p => by simp
        | true => exact rest
    · have keep : stripped (b :: bs) = b :: stripped bs := by simp [stripped, cr]
      have rest := ih (b ≠ Byte.newline) (b ≠ Byte.newline) id
      rw [if_pos rfl] at rest
      rw [keep, faces, faces, if_neg cr, if_neg cr, returns, if_neg cr]
      exact rest.cons b joined joined' weaker

theorem getLast?_stripped {text : Bytes} {b : Byte} (last : text.getLast? = some b)
    (other : b ≠ Byte.carriageReturn) : (stripped text).getLast? = some b := by
  obtain ⟨before, rfl⟩ := List.getLast?_eq_some_iff.mp last
  rw [stripped, List.filter_append]
  simp [other]

/-- The faces of the mended text are those of the stripped one, closed as the text itself is. -/
theorem faces_mended (text : Bytes) : faces false (mended text) ++ closing (mended text) =
    faces false (stripped text) ++ closing text := by
  unfold mended
  by_cases ends : text.getLast? = some Byte.carriageReturn
  · have open_end : closing text = [(Byte.newline, false)] := by
      rw [closing, ends]
      decide
    by_cases newline : (stripped text).getLast? = some Byte.newline
    · obtain ⟨before, at_end⟩ := List.getLast?_eq_some_iff.mp newline
      obtain ⟨after, split⟩ := faces_append false before
      have closed : closing (stripped text ++ [Byte.newline]) = [] := by simp [closing]
      rw [if_pos ⟨ends, newline⟩, closed, open_end, at_end, List.append_assoc, split, split]
      have other : Byte.newline ≠ Byte.carriageReturn := by decide
      simp [faces, other]
    · rw [if_neg fun both => newline both.2, closing, if_neg newline, open_end]
  · rw [if_neg fun both => ends both.1, closing, closing]
    cases last : text.getLast? with
    | none =>
      obtain rfl := List.getLast?_eq_none_iff.mp last
      rfl
    | some b =>
      have other : b ≠ Byte.carriageReturn := by
        rintro rfl
        exact ends last
      rw [getLast?_stripped last other]

/-- Without a carriage return inside of a number, a program scans like the text without any, and
with one line feed more where a carriage return stands behind the last line feed. -/
theorem lexemes_mended (text : Bytes)
    (whole : ∀ span ∈ (Scanner.ofProgram (inline (mended text))).numberSpans,
      ∀ e ∈ returns text, ¬ Scanner.Splits e span) :
    (Scanner.ofProgram (inline text)).lexemes = (Scanner.ofProgram (inline (mended text))).lexemes := by
  have loosened := (loosened_stripped false false id text).closing text
  rw [if_pos rfl, ← faces_mended, ← inline_faces, ← inline_faces] at loosened
  exact ((Scanner.lexemes_ofProgram_eq_iff ⟨_, rfl⟩ ⟨_, rfl⟩ loosened).mpr whole).symm

/-- The text is `a=12\r\n\r`. -/
theorem lexemes_mended_assignment :
    let text : Bytes := [0x61, 0x3d, 0x31, 0x32, 0x0d, 0x0a, 0x0d]
    (∀ span ∈ (Scanner.ofProgram (inline (mended text))).numberSpans,
      ∀ e ∈ returns text, ¬ Scanner.Splits e span) ∧
    (Scanner.ofProgram (inline text)).lexemes =
      (Scanner.ofProgram (inline (mended text))).lexemes := by
  intro text
  have whole : ∀ span ∈ (Scanner.ofProgram (inline (mended text))).numberSpans,
      ∀ e ∈ returns text, ¬ Scanner.Splits e span := by
    rw [Scanner.numberSpans, Scanner.spans, Scanner.advances_eq_within (Nat.lt_succ_self _)]
    decide
  exact ⟨whole, lexemes_mended text whole⟩

/-- Carriage returns show in `x\n\r` and in `1\r2`. -/
theorem lexemes_stripped_ne :
    (Scanner.ofProgram (inline [0x78, 0x0a, 0x0d])).lexemes ≠
        (Scanner.ofProgram (inline (stripped [0x78, 0x0a, 0x0d]))).lexemes ∧
      (Scanner.ofProgram (inline [0x31, 0x0d, 0x32])).lexemes ≠
        (Scanner.ofProgram (inline (stripped [0x31, 0x0d, 0x32]))).lexemes := by
  simp only [Scanner.lexemes, Scanner.advances_eq_within (Nat.lt_succ_self _)]
  decide

end AwkCore.Program
