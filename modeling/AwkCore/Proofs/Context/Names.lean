import AwkCore.Context
import AwkCore.Proofs.Scanner.WellFormed

/-!
# Names in tables

The text of a word is ASCII, so its name tells it apart from all other words. A name is looked up in
a table by its first place; a name that is not there gets the place behind the last one.
-/
namespace AwkCore

namespace Utf8

theorem start_ascii {b : Byte} (plain : b < 0x80) : start b = ([Char.ofNat b.toNat], none) := by
  rw [start, followers, if_pos plain]

theorem decode_ascii {w : Bytes} (plain : ∀ b ∈ w, b < 0x80) :
    decode w = w.map fun b => Char.ofNat b.toNat := by
  rw [decode]
  induction w with
  | nil => rfl
  | cons b bs ih =>
    obtain ⟨first, others⟩ := List.forall_mem_cons.mp plain
    rw [decodeFrom, start_ascii first, ih others]
    rfl

theorem toUInt8_ofNat {b : Byte} (plain : b < 0x80) : (Char.ofNat b.toNat).toUInt8 = b := by
  have all : ∀ n < 128, (Char.ofNat n).toUInt8.toNat = n := by decide
  exact UInt8.toNat_inj.mp (all b.toNat plain)

/-- Reading an ASCII text as UTF-8 keeps it. -/
theorem ascii_lossy {w : Bytes} (plain : ∀ b ∈ w, b < 0x80) : ascii (lossy w) = w := by
  rw [ascii, lossy, String.toList_ofList, decode_ascii plain, List.map_map]
  exact (List.map_congr_left fun b mem => toUInt8_ofNat (plain b mem)).trans (List.map_id w)

end Utf8

theorem Bytes.IsWord.plain {w : Bytes} (word : w.IsWord) : ∀ b ∈ w, b < 0x80 := by
  intro b mem
  have part := word.2 b mem
  simp only [Byte.isNamePart, Byte.isNameStart, Byte.isLetter, Byte.isUpper, Byte.isLower,
    Byte.isDigit, Bool.or_eq_true, Bool.and_eq_true, decide_eq_true_eq, beq_iff_eq,
    UInt8.le_iff_toNat_le, ← UInt8.toNat_inj] at part
  rw [UInt8.lt_iff_toNat_lt]
  change b.toNat < 128
  simp at part
  omega

theorem lossy_inj {v w : Bytes} (plain : ∀ b ∈ v, b < 0x80) (plain' : ∀ b ∈ w, b < 0x80)
    (same : Utf8.lossy v = Utf8.lossy w) : v = w := by
  rw [← Utf8.ascii_lossy plain, same, Utf8.ascii_lossy plain']

namespace Context

variable {c : Context} {name : String} {i : ℕ}

/-- A global is found under its name, and not at the first place. -/
theorem findGlobal?_some (found : c.findGlobal? name = some i) :
    0 < i ∧ (c.globals.toList[i]?).map Symbol.name = some name := by
  obtain ⟨k, place, rfl⟩ := Option.map_eq_some_iff.mp found
  obtain ⟨lt, same, _⟩ := List.findIdx?_eq_some_iff_getElem.mp place
  refine ⟨Nat.succ_pos k, ?_⟩
  have symbol : c.globals.toList[k + 1]? = some (c.globals.toList.drop 1)[k] := by
    rw [← List.getElem?_eq_getElem lt, List.getElem?_drop, Nat.add_comm]
  rw [symbol]
  exact congrArg some (of_decide_eq_true same)

theorem findGlobal?_none :
    c.findGlobal? name = none ↔ name ∉ (c.globals.toList.drop 1).map Symbol.name := by
  simp [findGlobal?, List.findIdx?_eq_none_iff, -List.map_tail]

theorem findFunction?_some (found : c.findFunction? name = some i) :
    (c.functions.toList[i]?).map Function.name = some name := by
  obtain ⟨lt, same, _⟩ := List.findIdx?_eq_some_iff_getElem.mp found
  rw [List.getElem?_eq_getElem lt]
  exact congrArg some (of_decide_eq_true same)

theorem findFunction?_none :
    c.findFunction? name = none ↔ name ∉ c.functions.toList.map Function.name := by
  simp [findFunction?, List.findIdx?_eq_none_iff]

end Context

end AwkCore
