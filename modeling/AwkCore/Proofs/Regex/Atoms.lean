import AwkCore.Proofs.Regex.Rows
import AwkCore.Proofs.Regex.Search
import AwkCore.Regex.Engine

/-!
# An engine on rows of atoms

A pattern that is a row of atoms is read as the row of their bytes, and it is found exactly where the
bytes stand. So the engine to run with is one that means rows as it is assumed of engines.
-/
namespace AwkCore

/-- Things side by side are one level deep when each of them alone is flat. -/
theorem Nested.depthOf_flat {α : Type} (xs : List α) : depthOf (xs.map flat) ≤ 1 := by
  have level (d : ℕ) (xs : List α) : (xs.map flat).foldl (fun d x => max d x.depth) d = d := by
    induction xs with
    | nil => rfl
    | cons x xs ih => simpa [flat] using ih
  match xs with
  | [] => exact Nat.zero_le _
  | [_] => exact Nat.zero_le _
  | x :: y :: xs => exact Nat.succ_le_succ (level 0 (x :: y :: xs)).le

namespace Regex

variable {s : Bytes}

theorem sequence_bytes (s : Bytes) : sequence (s.map byte) = row (s.map byte) := by
  rw [sequence, List.flatMap_map]
  congr 1
  induction s with
  | nil => rfl
  | cons b s ih => exact congrArg (byte b :: ·) ih

theorem choice_singleton (r : Regex) : choice [r] = r := by
  cases r with
  | one set => simp [choice, alternation, set?, ByteSet.unions, ByteSet.empty, ByteSet.union]
  | _ => rfl

theorem assemble_atoms (outer : List Open) (g : Open) (rs : List (Nested Regex)) :
    assemble outer g (rs.map Piece.atom) =
      assemble outer ⟨g.branches, rs.reverse ++ g.atoms⟩ [] := by
  induction rs generalizing g with
  | nil => rfl
  | cons r rs ih => simp [assemble, ih, Open.push]

theorem close_atoms (rs : List (Nested Regex)) :
    Open.close ⟨[], rs.reverse⟩ = Nested.gather sequence rs := by
  simp [Open.close, Open.branch, Nested.gather, Nested.depthOf, choice_singleton]

/-- A pattern whose pieces are bytes is the row of these bytes. -/
theorem parse?_atoms {pattern : Bytes}
    (pieces : readPieces 0 pattern = some (s.map fun b => .atom (Nested.flat (byte b)))) :
    parse? pattern = some (row (s.map byte)) := by
  let atoms := (s.map byte).map Nested.flat
  have together : assemble [] Open.new (s.map fun b => .atom (Nested.flat (byte b))) =
      some (Nested.gather sequence atoms) := by
    have all := assemble_atoms [] Open.new atoms
    rw [List.map_map, List.map_map, Open.new, List.append_nil] at all
    exact all.trans (congrArg some (close_atoms atoms))
  have value : (Nested.gather sequence atoms).value = row (s.map byte) := by
    rw [← sequence_bytes, Nested.gather, List.map_map]
    exact congrArg sequence (List.map_id _)
  have shallow : (Nested.gather sequence atoms).withinLimit = true :=
    decide_eq_true ((Nested.depthOf_flat _).trans (by decide))
  rw [parse?, pieces]
  simp [together, value, shallow]

/-- A backslash takes the meaning from a sign. -/
theorem readEscape_sign {b : Byte} (sign : b ∈ Byte.regexSigns ∨ b = Byte.backslash) (w : Bytes) :
    readEscape (b :: w) = some (.byte b, 1) := by
  have meaningless : ∀ b ∈ Byte.backslash :: Byte.regexSigns, classLetter? b = none ∧
      controlLetter? b = none ∧ assertionLetter? b = none ∧ hexLetter? b = none ∧
      (Byte.isLetter b || Byte.isDigit b) = false := List.all_iff_forall_prop.mp (by decide)
  obtain ⟨noClass, control, assertion, hex, sign⟩ :=
    meaningless b (List.mem_cons.mpr sign.symm)
  simp [readEscape, noClass, control, assertion, hex, sign]

theorem hexNumber?_hexPair (b : Byte) : hexNumber? b.hexPair = some b.toNat := by
  have lt := b.toNat_lt
  have high := Byte.hexValue?_hexDigit (b.toNat / 16) (by omega)
  have low := Byte.hexValue?_hexDigit (b.toNat % 16) (by omega)
  simp [hexNumber?, Byte.hexPair, high, low]
  omega

theorem readHex_hexPair (b : Byte) (w : Bytes) :
    readHex 2 (b.hexPair ++ w) = some (.byte b, 2) := by
  have lt := b.toNat_lt
  have open_brace : ∀ n < 16, Byte.hexDigit n ≠ 0x7b := by decide
  unfold readHex
  split
  · rename_i brace
    exact absurd (List.cons.inj brace).1 (open_brace _ (by omega))
  · have digits : (b.hexPair ++ w).take 2 = b.hexPair := rfl
    have whole : ¬ b.hexPair.length < 2 := Nat.lt_irrefl 2
    rw [digits]
    simp [whole, hexNumber?_hexPair]

theorem readPiece_escape {b : Byte} {rest : Bytes} {used : ℕ}
    (escape : readEscape rest = some (.byte b, used)) :
    readPiece Byte.backslash rest = some (.atom (Nested.flat (byte b)), used) := by
  simp [readPiece, Byte.backslash, escape]

theorem readPiece_plain {b : Byte} (plain : b ∉ Byte.regexSigns) (other : b ≠ Byte.backslash)
    (w : Bytes) : readPiece b w = some (.atom (Nested.flat (byte b)), 0) := by
  have signs : Byte.regexSigns = [0x2e, 0x5b, 0x5d, 0x28, 0x29, 0x2a, 0x2b, 0x3f, 0x7b, 0x7d, 0x7c,
      0x5e, 0x24, 0x2d] := by decide
  simp only [signs, List.mem_cons, not_or] at plain
  simp [readPiece, plain, other]

/-- An atom is read as its byte. -/
theorem readPieces_atom {a : Bytes} {b : Byte} (atom : Pattern.Atom a b) (w : Bytes) :
    readPieces 0 (a ++ w) = (readPieces 0 w).map (.atom (Nested.flat (byte b)) :: ·) := by
  cases atom with
  | plain _ no_sign other =>
    have piece := readPiece_plain no_sign other w
    simp [readPieces, piece]
  | escaped sign =>
    have piece := readPiece_escape (readEscape_sign sign w)
    simp [readPieces, piece]
  | digits =>
    have letter : classLetter? 0x78 = none ∧ controlLetter? 0x78 = none ∧
        assertionLetter? 0x78 = none ∧ hexLetter? 0x78 = some 2 := by decide
    have escape : readEscape (0x78 :: (b.hexPair ++ w)) = some (.byte b, 3) := by
      simp [readEscape, letter, readHex_hexPair]
    have split : Pattern.hexEscape b ++ w = Byte.backslash :: 0x78 :: (b.hexPair ++ w) := rfl
    rw [split, readPieces, readPiece_escape escape]
    rfl

theorem readPieces_row {p : Bytes} (row : Pattern.Row p s) :
    readPieces 0 p = some (s.map fun b => .atom (Nested.flat (byte b))) := by
  induction row with
  | nil => rfl
  | cons atom _ ih =>
    rw [readPieces_atom atom, ih]
    rfl

/-- To this engine rows of atoms mean their bytes. It never takes one for malformed. -/
theorem engine_follows : engine.Follows Pattern.RowMeans := by
  apply Engine.follows_of_rows
  case wellFormed =>
    intro p s pattern
    simp only [engine, parse?_atoms (readPieces_row pattern)]
    split <;> simp
  case found =>
    intro p s pattern _ subject
    simp only [engine, parse?_atoms (readPieces_row pattern), Option.any_some, search_row]

end Regex

end AwkCore
