import AwkCore.Proofs.Binary64.Format
import AwkCore.Proofs.Binary64.Whole
import AwkCore.Proofs.Table.Dictionary
import AwkCore.Proofs.Value.Input

/-!
# Whole numbers as text and back

The text of a whole number below the bound is read as that number again, as a whole and from the front.
So whole numbers have texts of their own, and stand for entries of their own when their texts are keys.
-/
namespace AwkCore

open Numeral (WritesSigned WritesSpaced)

namespace Dictionary

variable {κ ν : Type} {view : κ → Bytes} {d : Dictionary κ ν} {key : Bytes}

theorem entry?_key {e : κ × ν} (found : d.entry? view key = some e) : view e.1 = key := by
  simpa using List.find?_some found

theorem entry?_change (d : Dictionary κ ν) (here key : Bytes) (f : ν → ν) :
    Dictionary.entry? view (d.change view here f) key =
      (d.entry? view key).map fun e => if view e.1 == here then (e.1, f e.2) else e := by
  have keeps : ((fun e : κ × ν => view e.1 == key) ∘
      fun e : κ × ν => if view e.1 == here then (e.1, f e.2) else e) = fun e => view e.1 == key := by
    funext e
    simp only [Function.comp]
    split <;> rfl
  rw [Dictionary.entry?, change, List.find?_map, keeps, Dictionary.entry?]

/-- A key under which a value is stored has that value, and other keys are as they were. -/
theorem entry?_visit [Inhabited ν] (d : Dictionary κ ν) (k : κ) (value : ν) (key : Bytes) :
    (Dictionary.entry? view (d.visit view k fun _ => value) key).map Prod.snd =
      if view k = key then some value else (d.entry? view key).map Prod.snd := by
  unfold visit
  split
  case isTrue present =>
    obtain ⟨e, here⟩ := Option.isSome_iff_exists.mp present
    rw [entry?_change]
    split
    case isTrue same =>
      subst same
      simp [here, entry?_key here]
    case isFalse other =>
      cases found : d.entry? view key with
      | none => rfl
      | some e => simp [entry?_key found, Ne.symm other]
  case isFalse absent =>
    have absent : d.entry? view (view k) = none := by simpa using absent
    rw [Dictionary.entry?] at absent ⊢
    rw [List.find?_append]
    split
    case isTrue same =>
      subst same
      simp [absent]
    case isFalse other => simp [Dictionary.entry?, other]

end Dictionary

namespace Table

variable {κ ν : Type} {view : κ → Bytes} {t : Table κ ν} [Inhabited ν]

/-- A value that is stored is found under its key, and what is found under other keys stays. -/
theorem Sound.find_insert (h : Sound view t) (k : κ) (value : ν) (key : Bytes) :
    Sound view (t.apply view (.insert k value)).1 ∧
      (t.apply view (.insert k value)).1.find? view key =
        if view k = key then some value else t.find? view key := by
  have step := h.apply (.insert k value)
  refine ⟨step.sound, ?_⟩
  rw [step.sound.find_eq, step.entries_eq, h.find_eq]
  exact Dictionary.entry?_visit t.entries k value key

end Table

namespace Value

variable {α : Type} {x y : Binary64} {j k : ℤ}

/-- The bytes of a whole number: its digits, behind a minus sign if it is negative. -/
def wholeBytes (k : ℤ) : Bytes :=
  (if k < 0 then [0x2d] else []) ++ (Nat.toDigits 10 k.natAbs).map Char.toUInt8

theorem toText_whole (whole : x.toRat = k) (small : |k| < 10 ^ 15) :
    (number x : Value Bytes α).toText = wholeBytes k := by
  have bound : |k| < 2 ^ 53 := small.trans (by norm_num)
  rw [toText, Binary64.text_whole (Binary64.finite_of_whole whole bound) whole small,
    Binary64.toString_int, Utf8.encode_append, apply_ite Utf8.encode, Utf8.encode_minus,
    Utf8.encode_empty,
    Nat.toString_eq_ofList_toDigits, Binary64.encode_digits (Numeral.toDigits_digits _), wholeBytes]

theorem wholeBytes_writes (k : ℤ) : WritesSpaced (wholeBytes k) (decide (k < 0)) k.natAbs := by
  have row : Numeral.IsRow ((Nat.toDigits 10 k.natAbs).map Char.toUInt8) :=
    Numeral.isRow_map (Numeral.toDigits_digits _) (Numeral.toDigits_ne_nil _)
  have digits : Numeral.Writes ((Nat.toDigits 10 k.natAbs).map Char.toUInt8) k.natAbs := by
    simpa [Numeral.natural_toDigits] using Numeral.Writes.intro (.whole row) .absent
  have signed : WritesSigned (wholeBytes k) (decide (k < 0)) k.natAbs := by
    unfold wholeBytes
    split
    case isTrue negative => simpa [negative] using WritesSigned.minus digits
    case isFalse nonneg => simpa [nonneg] using WritesSigned.unsigned digits
  have spaced := WritesSpaced.intro (List.forall_mem_nil _) signed (List.forall_mem_nil _)
  rwa [List.append_nil, List.nil_append] at spaced

/-- The bytes of a whole number are read as that number, as a whole and from the front. -/
theorem read_wholeBytes (k : ℤ) : Numeral.whole? (wholeBytes k) = some (Binary64.ofInt k) ∧
    Numeral.leading (wholeBytes k) = Binary64.ofInt k := by
  obtain ⟨x, nearest, whole, leading⟩ := Numeral.whole?_of_writes (wholeBytes_writes k)
  have same : x = Binary64.ofNat k.natAbs := by
    have read := Binary64.isNearest_nearest k.natAbs Nat.one_pos
    rw [Nat.cast_one, div_one] at read
    exact nearest.unique read
  have signed : Numeral.signed (decide (k < 0)) x = Binary64.ofInt k := by
    rw [Numeral.signed, Binary64.ofInt, same]
    simp only [decide_eq_true_eq]
  exact ⟨signed ▸ whole, signed ▸ leading⟩

/-- Other numbers have other bytes, since each is what its bytes are read as. -/
theorem wholeBytes_ne (small : |k| < 10 ^ 15) (small' : |j| < 10 ^ 15) (other : j ≠ k) :
    wholeBytes j ≠ wholeBytes k := by
  intro same
  have bound : (10 ^ 15 : ℤ) < 2 ^ 53 := by norm_num
  have read := (read_wholeBytes j).2.symm.trans ((congrArg _ same).trans (read_wholeBytes k).2)
  have number : (j : ℚ) = k := by
    rw [← Binary64.toRat_ofInt (small'.trans bound), read, Binary64.toRat_ofInt (small.trans bound)]
  exact other (Int.cast_injective number)

/-- A whole number below the bound is the number of a double. However a double has it as its number, its
text makes a numeric string of that number, and a plain string that counts as it. Doubles of different
such numbers have different texts. Stored under both in a table, whatever was done with the table before,
two values are each found under the text of its own number. -/
theorem toText_whole_inverse (small : |k| < 10 ^ 15) :
    (Binary64.ofInt k).toRat = k ∧ ∀ x : Binary64, x.toRat = k →
      let text := (number x : Value Bytes α).toText
      (ofInput text : Value Bytes α) = numericString text (Binary64.ofInt k) ∧
      (string text : Value Bytes α).toNumber = Binary64.ofInt k ∧
      ∀ (j : ℤ) (y : Binary64), |j| < 10 ^ 15 → y.toRat = j → j ≠ k →
        let other := (number y : Value Bytes α).toText
        other ≠ text ∧
        ∀ {κ ν : Type} [Inhabited ν] (view : κ → Bytes) (actions : List (Table.Action κ ν)) (a b : κ)
          (v w : ν), view a = text → view b = other →
          let t := (Table.run view Table.new actions).1
          let u := ((t.apply view (.insert a v)).1.apply view (.insert b w)).1
          u.find? view text = some v ∧ u.find? view other = some w := by
  have bound : |k| < 2 ^ 53 := small.trans (by norm_num)
  refine ⟨Binary64.toRat_ofInt bound, fun x whole => ?_⟩
  rw [toText_whole whole small]
  obtain ⟨read, front⟩ := read_wholeBytes k
  refine ⟨by rw [ofInput, read], front, fun j y small' whole' distinct => ?_⟩
  rw [toText_whole whole' small']
  have other := wholeBytes_ne small small' distinct
  refine ⟨other, fun view actions a b v w at_a at_b => ?_⟩
  have start : Table.Sound view (Table.run view Table.new actions).1 :=
    (Table.Sound.new.run actions).1
  obtain ⟨first, found⟩ := start.find_insert a v (wholeBytes k)
  obtain ⟨_, kept⟩ := first.find_insert b w (wholeBytes k)
  obtain ⟨_, added⟩ := first.find_insert b w (wholeBytes j)
  rw [at_b, if_neg other, found, if_pos at_a] at kept
  rw [if_pos at_b] at added
  exact ⟨kept, added⟩

/-- The least number above the bound's negative, and its neighbour, each with its own entry. -/
theorem toText_whole_inverse_least :
    let read : Bytes → Value Bytes Unit := ofInput
    let t : Table Bytes ℕ := (Table.new.apply id (.insert (ascii "-999999999999999") 1)).1
    let u := (t.apply id (.insert (ascii "-999999999999998") 2)).1
    |(-999999999999999 : ℤ)| < 10 ^ 15 ∧
      read (number (Binary64.ofInt (-999999999999999)) : Value Bytes Unit).toText =
        numericString (ascii "-999999999999999") (Binary64.ofInt (-999999999999999)) ∧
      u.find? id (ascii "-999999999999999") = some 1 ∧
      u.find? id (ascii "-999999999999998") = some 2 := by
  have small : |(-999999999999999 : ℤ)| < 10 ^ 15 := by norm_num
  have small' : |(-999999999999998 : ℤ)| < 10 ^ 15 := by norm_num
  obtain ⟨whole, texts⟩ := toText_whole_inverse (α := Unit) small
  have whole' := Binary64.toRat_ofInt (small'.trans (by norm_num))
  have text : (number (Binary64.ofInt (-999999999999999)) : Value Bytes Unit).toText =
      ascii "-999999999999999" := by
    rw [toText_whole whole small]
    decide
  have text' : (number (Binary64.ofInt (-999999999999998)) : Value Bytes Unit).toText =
      ascii "-999999999999998" := by
    rw [toText_whole whole' small']
    decide
  obtain ⟨read, _, others⟩ := texts _ whole
  obtain ⟨_, entries⟩ := others _ _ small' whole' (by decide)
  rw [text] at read entries
  rw [text'] at entries
  obtain ⟨first, second⟩ := entries id [] _ _ 1 2 rfl rfl
  exact ⟨small, text ▸ read, first, second⟩

end Value

end AwkCore
