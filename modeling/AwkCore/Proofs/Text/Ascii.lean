import Mathlib.Data.List.Basic
import AwkCore.Text.Utf8

/-!
# Characters of one byte

The characters of ASCII are encoded by the bytes of their codes.
-/
namespace AwkCore

theorem ascii_ofList (cs : List Char) : ascii (String.ofList cs) = cs.map Char.toUInt8 := by
  rw [ascii, String.toList_ofList]

namespace Utf8

theorem toList_loop (bytes : ByteArray) (i : Nat) (read : List UInt8) :
    ByteArray.toList.loop bytes i read = read.reverse ++ bytes.data.toList.drop i := by
  fun_induction ByteArray.toList.loop bytes i read with
  | case1 i read lt ih =>
    have inside : i < bytes.data.toList.length := lt
    have here : bytes.get! i = bytes.data.toList[i] := getElem!_pos bytes.data i lt
    rw [ih, List.drop_eq_getElem_cons inside, List.reverse_cons, List.append_assoc, here]
    rfl
  | case2 i read ge =>
    have outside : bytes.data.toList.length ≤ i := Nat.not_lt.mp ge
    rw [List.drop_eq_nil_of_le outside, List.append_nil]

theorem encode_eq (s : String) : encode s = s.toList.flatMap String.utf8EncodeChar := by
  rw [encode, String.toUTF8_eq_toByteArray, ByteArray.toList, toList_loop, List.reverse_nil,
    List.nil_append, List.drop_zero, ← String.utf8Encode_toList, List.utf8Encode,
    List.toList_data_toByteArray]

theorem encode_append (s t : String) : encode (s ++ t) = encode s ++ encode t := by
  rw [encode_eq, encode_eq, encode_eq, String.toList_append, List.flatMap_append]

theorem encode_ascii {s : String} (plain : ∀ c ∈ s.toList, c.toNat < 0x80) : encode s = ascii s := by
  have single : ∀ c ∈ s.toList, String.utf8EncodeChar c = [c.toUInt8] := by
    intro c mem
    have small : c.val ≤ 0x7f := UInt32.le_iff_toNat_le.mpr (Nat.le_of_lt_succ (plain c mem))
    exact String.utf8EncodeChar_eq_singleton (if_pos small)
  rw [encode_eq, ascii, List.map_eq_flatMap]
  exact List.flatMap_congr single

theorem encode_empty : encode "" = [] := encode_eq ""

theorem encode_minus : encode "-" = [0x2d] := encode_ascii (by simp)

end Utf8

end AwkCore
