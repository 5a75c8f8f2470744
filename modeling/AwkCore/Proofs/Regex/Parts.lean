import AwkCore.Regex.Pattern
import Mathlib.Data.List.Basic

/-!
# Parts of a pattern

A pattern is cut from the left into parts: a backslash with the byte after it, a backslash that nothing
follows, or another byte by itself. To write it in ASCII is to write in digits the parts that have a
byte above 0x7f, and to leave the others as they are. What is written is cut at the same places, so
that a backslash escapes what it escaped before, or is escaped as it was.
-/
namespace AwkCore

namespace Byte

/-- The hexadecimal digits, with small letters. -/
def smallDigits : Bytes := ascii "0123456789abcdef"

/-- A byte as a backslash, an x and two hexadecimal digits. -/
def inDigits (b : Byte) : Bytes :=
  [backslash, 0x78, smallDigits.getD (b.toNat / 16) 0, smallDigits.getD (b.toNat % 16) 0]

end Byte

namespace Pattern

inductive Part
  | escape (b : Byte)
  | loose
  | plain (b : Byte) (other : b ≠ Byte.backslash)
  deriving DecidableEq

/-- What a byte is to the cut: a backslash that escapes the byte after it, or would if there were one;
the byte that it escapes; or neither. -/
inductive Role
  | escaping | escaped | bare
  deriving DecidableEq, Repr

namespace Part

def bytes : Part → Bytes
  | escape b => [Byte.backslash, b]
  | loose => [Byte.backslash]
  | plain b _ => [b]

def roles : Part → List Role
  | escape _ => [.escaping, .escaped]
  | loose => [.escaping]
  | plain _ _ => [.bare]

/-- The byte above 0x7f that a part stands for. -/
def high? : Part → Option Byte
  | escape b | plain b _ => if Byte.isAscii b then none else some b
  | loose => none

def inAscii (part : Part) : Bytes := part.high?.elim part.bytes Byte.inDigits

end Part

def parts : Bytes → List Part
  | [] => []
  | [b] => [if other : b ≠ Byte.backslash then .plain b other else .loose]
  | b :: c :: s =>
    if other : b ≠ Byte.backslash then .plain b other :: parts (c :: s) else .escape c :: parts s

/-- The roles of the bytes of a pattern, in order. -/
def roles (p : Bytes) : List Role := (parts p).flatMap Part.roles

variable {part : Part} {u : Bytes}

@[simp] theorem parts_escape (b : Byte) (s : Bytes) :
    parts (Byte.backslash :: b :: s) = .escape b :: parts s := by
  simp [parts]

@[simp] theorem parts_plain {b : Byte} (other : b ≠ Byte.backslash) (s : Bytes) :
    parts (b :: s) = .plain b other :: parts s := by
  cases s <;> simp [parts, other]

theorem parts_bytes_append (closed : part ≠ .loose) (s : Bytes) :
    parts (part.bytes ++ s) = part :: parts s := by
  cases part with
  | escape b => exact parts_escape b s
  | loose => contradiction
  | plain b other => exact parts_plain other s

theorem parts_bytes (part : Part) : parts part.bytes = [part] := by
  by_cases loose : part = .loose
  · rw [loose]
    rfl
  · simpa [parts] using parts_bytes_append loose []

/-- Induction along the cut of a pattern. -/
@[elab_as_elim]
theorem cut_induction {motive : Bytes → Prop} (nil : motive [])
    (loose : motive Part.loose.bytes)
    (part : ∀ (part : Part) (s : Bytes), part ≠ .loose → motive s → motive (part.bytes ++ s))
    (p : Bytes) : motive p := by
  fun_induction parts p with
  | case1 => exact nil
  | case2 b =>
    by_cases other : b ≠ Byte.backslash
    · exact part (.plain b other) [] nofun nil
    · rw [not_not.mp other]
      exact loose
  | case3 b c s other ih => exact part (.plain b other) (c :: s) nofun ih
  | case4 b c s backslash ih =>
    rw [not_not.mp backslash]
    exact part (.escape c) s nofun ih

/-- Nothing is lost in the cut. -/
theorem flatMap_bytes_parts (p : Bytes) : (parts p).flatMap Part.bytes = p := by
  induction p using cut_induction with
  | nil => rfl
  | loose => rfl
  | part part s closed ih => rw [parts_bytes_append closed, List.flatMap_cons, ih]

/-- A text that leaves no backslash open is cut by itself. -/
theorem parts_append (closed : Part.loose ∉ parts u) (w : Bytes) :
    parts (u ++ w) = parts u ++ parts w := by
  induction u using cut_induction with
  | nil => rfl
  | loose => exact absurd (List.mem_singleton_self _) closed
  | part part s whole ih =>
    rw [parts_bytes_append whole] at closed ⊢
    rw [List.append_assoc, parts_bytes_append whole, ih (List.not_mem_of_not_mem_cons closed),
      List.cons_append]

theorem roles_append (closed : Part.loose ∉ parts u) (w : Bytes) :
    roles (u ++ w) = roles u ++ roles w := by
  rw [roles, parts_append closed, List.flatMap_append]
  rfl

theorem Part.length_roles (part : Part) : part.roles.length = part.bytes.length := by
  cases part <;> rfl

theorem length_roles (p : Bytes) : (roles p).length = p.length := by
  induction p using cut_induction with
  | nil => rfl
  | loose => rfl
  | part part s closed ih =>
    rw [roles, parts_bytes_append closed, List.flatMap_cons, List.length_append,
      List.length_append, part.length_roles]
    exact congrArg _ ih

/-- The digits are ASCII, and no backslash is among them. -/
theorem smallDigits_getD : ∀ n < 16, Byte.smallDigits.getD n 0 = Byte.hexDigit n ∧
    Byte.isAscii (Byte.hexDigit n) = true ∧ Byte.hexDigit n ≠ Byte.backslash := by
  decide

theorem hexEscape_eq (b : Byte) : hexEscape b = b.inDigits := by
  have below := b.toNat_lt
  obtain ⟨high, _⟩ := smallDigits_getD (b.toNat / 16) (by omega)
  obtain ⟨low, _⟩ := smallDigits_getD (b.toNat % 16) (by omega)
  rw [Byte.inDigits, high, low]
  rfl

theorem isAscii_inDigits (b : Byte) : ∀ c ∈ b.inDigits, Byte.isAscii c = true := by
  have below := b.toNat_lt
  obtain ⟨high, high_ascii, _⟩ := smallDigits_getD (b.toNat / 16) (by omega)
  obtain ⟨low, low_ascii, _⟩ := smallDigits_getD (b.toNat % 16) (by omega)
  have lead : Byte.isAscii Byte.backslash = true ∧ Byte.isAscii 0x78 = true := by decide
  rw [Byte.inDigits, high, low]
  simp [lead, high_ascii, low_ascii]

/-- The digits of a byte are an escape and two bytes by themselves. -/
theorem parts_inDigits (b : Byte) : ∃ high low, parts b.inDigits =
    [.escape 0x78, .plain (Byte.smallDigits.getD (b.toNat / 16) 0) high,
      .plain (Byte.smallDigits.getD (b.toNat % 16) 0) low] := by
  have below := b.toNat_lt
  obtain ⟨high, _, high_other⟩ := smallDigits_getD (b.toNat / 16) (by omega)
  obtain ⟨low, _, low_other⟩ := smallDigits_getD (b.toNat % 16) (by omega)
  rw [← high] at high_other
  rw [← low] at low_other
  refine ⟨high_other, low_other, ?_⟩
  rw [Byte.inDigits, parts_escape, parts_plain high_other, parts_plain low_other, parts]

namespace Part

theorem inAscii_of_none (none : part.high? = none) : part.inAscii = part.bytes := by
  rw [inAscii, none]
  rfl

theorem inAscii_of_some {b : Byte} (some : part.high? = some b) : part.inAscii = b.inDigits := by
  rw [inAscii, some]
  rfl

/-- A part without a byte above 0x7f is ASCII throughout. -/
theorem isAscii_bytes (none : part.high? = none) : ∀ c ∈ part.bytes, Byte.isAscii c = true := by
  have backslash : Byte.isAscii Byte.backslash = true := by decide
  cases part <;> simp_all [high?, bytes]

theorem isAscii_inAscii (part : Part) : ∀ c ∈ part.inAscii, Byte.isAscii c = true := by
  cases high : part.high? with
  | none =>
    rw [inAscii_of_none high]
    exact isAscii_bytes high
  | some b =>
    rw [inAscii_of_some high]
    exact isAscii_inDigits b

theorem loose_notMem_bytes (closed : part ≠ .loose) : loose ∉ parts part.bytes := by
  rw [parts_bytes]
  exact fun mem => closed (List.mem_singleton.mp mem).symm

theorem loose_notMem_inAscii (closed : part ≠ .loose) : loose ∉ parts part.inAscii := by
  cases high : part.high? with
  | none =>
    rw [inAscii_of_none high]
    exact loose_notMem_bytes closed
  | some b =>
    obtain ⟨_, _, digits⟩ := parts_inDigits b
    rw [inAscii_of_some high, digits]
    simp

end Part

theorem inAscii_escape (b : Byte) (s : Bytes) :
    inAscii (Byte.backslash :: b :: s) = (Part.escape b).inAscii ++ inAscii s := by
  by_cases ascii : Byte.isAscii b = true <;>
    simp [inAscii, inAsciiFrom, Part.bytes, Part.inAscii, Part.high?, ascii, hexEscape_eq]

theorem inAscii_plain {b : Byte} (other : b ≠ Byte.backslash) (s : Bytes) :
    inAscii (b :: s) = (Part.plain b other).inAscii ++ inAscii s := by
  by_cases ascii : Byte.isAscii b = true <;>
    simp [inAscii, inAsciiFrom, Part.bytes, Part.inAscii, Part.high?, ascii, other, hexEscape_eq]

/-- The part at the head of a pattern is written by itself. -/
theorem inAscii_bytes_append (closed : part ≠ .loose) (s : Bytes) :
    inAscii (part.bytes ++ s) = part.inAscii ++ inAscii s := by
  cases part with
  | escape b => exact inAscii_escape b s
  | loose => contradiction
  | plain b other => exact inAscii_plain other s

theorem inAscii_eq_flatMap (p : Bytes) : inAscii p = (parts p).flatMap Part.inAscii := by
  induction p using cut_induction with
  | nil => rfl
  | loose => rfl
  | part part s closed ih =>
    rw [parts_bytes_append closed, List.flatMap_cons, ← ih, inAscii_bytes_append closed]

theorem isAscii_inAscii (p : Bytes) : ∀ b ∈ inAscii p, Byte.isAscii b = true := by
  intro b mem
  rw [inAscii_eq_flatMap] at mem
  obtain ⟨part, _, mem⟩ := List.mem_flatMap.mp mem
  exact part.isAscii_inAscii b mem

theorem inAscii_eq_self_iff {p : Bytes} : inAscii p = p ↔ ∀ b ∈ p, Byte.isAscii b = true := by
  refine ⟨fun same => same ▸ isAscii_inAscii p, fun ascii => ?_⟩
  have same : ∀ part ∈ parts p, part.inAscii = part.bytes := by
    intro part mem
    have inside : ∀ c ∈ part.bytes, Byte.isAscii c = true := fun c at_c =>
      ascii c (flatMap_bytes_parts p ▸ List.mem_flatMap_of_mem mem at_c)
    apply Part.inAscii_of_none
    cases part <;> simp_all [Part.high?, Part.bytes]
  rw [inAscii_eq_flatMap, List.flatMap_congr same, flatMap_bytes_parts]

/-- What is written is cut as each part of the pattern is by itself. -/
theorem parts_inAscii (p : Bytes) :
    parts (inAscii p) = (parts p).flatMap fun part => parts part.inAscii := by
  induction p using cut_induction with
  | nil => rfl
  | loose => rfl
  | part part s closed ih =>
    rw [inAscii_bytes_append closed, parts_append (Part.loose_notMem_inAscii closed), ih,
      parts_bytes_append closed, List.flatMap_cons]

/-- A backslash at the head stays there, and escapes. -/
theorem inAscii_backslash_cons (v : Bytes) :
    ∃ w, inAscii (Byte.backslash :: v) = Byte.backslash :: w := by
  cases v with
  | nil => exact ⟨[], rfl⟩
  | cons b s =>
    have written := inAscii_escape b s
    cases high : (Part.escape b).high? with
    | none => exact ⟨_, written.trans (by rw [Part.inAscii_of_none high]; rfl)⟩
    | some c => exact ⟨_, written.trans (by rw [Part.inAscii_of_some high]; rfl)⟩

theorem roles_backslash_cons (v : Bytes) :
    (roles (Byte.backslash :: v))[0]? = some .escaping := by
  cases v with
  | nil => rfl
  | cons b s =>
    rw [roles, parts_escape]
    rfl

/-- What is before a backslash is written before it, and the backslash keeps its role. -/
theorem inAscii_append_backslash (u v : Bytes) :
    let p := u ++ Byte.backslash :: v
    ∃ w role, inAscii p = inAscii u ++ Byte.backslash :: w ∧ role ≠ .bare ∧
      (roles p)[u.length]? = some role ∧ (roles (inAscii p))[(inAscii u).length]? = some role := by
  induction u using cut_induction with
  | nil =>
    obtain ⟨w, written⟩ := inAscii_backslash_cons v
    exact ⟨w, .escaping, written, nofun, roles_backslash_cons v, written ▸ roles_backslash_cons w⟩
  | loose =>
    -- The backslash behind an open one is escaped, whatever follows.
    have escaped (s : Bytes) :
        (roles (Byte.backslash :: Byte.backslash :: s))[1]? = some .escaped := by
      rw [roles, parts_escape]
      rfl
    have written : inAscii (Byte.backslash :: Byte.backslash :: v) =
        Byte.backslash :: Byte.backslash :: inAscii v := inAscii_escape _ v
    exact ⟨inAscii v, .escaped, written, nofun, escaped v, written ▸ escaped (inAscii v)⟩
  | part part u closed ih =>
    obtain ⟨w, role, written, marked, before, after⟩ := ih
    intro p
    have split : p = part.bytes ++ (u ++ Byte.backslash :: v) := List.append_assoc _ _ _
    have split' : inAscii p = part.inAscii ++ inAscii (u ++ Byte.backslash :: v) := by
      rw [split, inAscii_bytes_append closed]
    refine ⟨w, role, ?_, marked, ?_, ?_⟩
    · rw [split', written, inAscii_bytes_append closed, List.append_assoc]
    · rw [split, roles_append (Part.loose_notMem_bytes closed), List.length_append,
        ← length_roles part.bytes, List.getElem?_append_right (Nat.le_add_right _ _),
        Nat.add_sub_cancel_left, before]
    · rw [split', roles_append (Part.loose_notMem_inAscii closed), inAscii_bytes_append closed,
        List.length_append, ← length_roles part.inAscii,
        List.getElem?_append_right (Nat.le_add_right _ _), Nat.add_sub_cancel_left, after]

/-- A pattern is written part by part: those that stand for a byte above 0x7f in digits, the others as
they are. So it comes out in ASCII, and unchanged if it was in ASCII before. What is written is cut into
parts as they are written, and each backslash of the pattern is still there, escaping or escaped as it
was, unless the digits of the byte that it escapes bring their own in its place. -/
theorem inAscii_rewrites (p : Bytes) :
    inAscii p = (parts p).flatMap Part.inAscii ∧
      (∀ b ∈ inAscii p, Byte.isAscii b = true) ∧
      (inAscii p = p ↔ ∀ b ∈ p, Byte.isAscii b = true) ∧
      (parts (inAscii p) = (parts p).flatMap fun part => parts part.inAscii) ∧
      ∀ u v, p = u ++ Byte.backslash :: v →
        ∃ w role, inAscii p = inAscii u ++ Byte.backslash :: w ∧ role ≠ .bare ∧
          (roles p)[u.length]? = some role ∧
          (roles (inAscii p))[(inAscii u).length]? = some role := by
  refine ⟨inAscii_eq_flatMap p, isAscii_inAscii p, inAscii_eq_self_iff, parts_inAscii p, ?_⟩
  rintro u v rfl
  exact inAscii_append_backslash u v

/-- Of three backslashes before a byte that is written in digits, the second one is escaped, and the
third one gives way to that of the digits. -/
theorem inAscii_rewrites_backslashes :
    let p : Bytes := [0x5c, 0x5c, 0x5c, 0xff]
    p = [0x5c] ++ Byte.backslash :: [0x5c, 0xff] ∧ inAscii p = ascii "\\\\\\xff" ∧
      ∃ w, inAscii p = [0x5c] ++ Byte.backslash :: w ∧
        (roles p)[1]? = some .escaped ∧ (roles (inAscii p))[1]? = some .escaped := by
  intro p
  have split : p = [0x5c] ++ Byte.backslash :: [0x5c, 0xff] := rfl
  obtain ⟨_, _, _, _, kept⟩ := inAscii_rewrites p
  obtain ⟨w, role, written, _, before, after⟩ := kept _ _ split
  have escaped : role = .escaped := Option.some.inj (before.symm.trans (by decide))
  exact ⟨split, by decide, w, written, escaped ▸ before, escaped ▸ after⟩

/-- Write the next byte of a pattern, with what is written and whether it ends in a backslash that
escapes the byte. If the byte is written in digits, that backslash is taken back. -/
def write : Bytes × Bool → Byte → Bytes × Bool
  | (text, held), b =>
    if Byte.isAscii b then (text ++ [b], b = Byte.backslash && !held)
    else ((if held then text.dropLast else text) ++ hexEscape b, false)

theorem foldl_write (p text : Bytes) :
    (p.foldl write (text, false)).1 = text ++ inAsciiFrom false p ∧
      (p.foldl write (text ++ [Byte.backslash], true)).1 = text ++ inAsciiFrom true p := by
  induction p generalizing text with
  | nil => simp [inAsciiFrom]
  | cons b p ih =>
    have backslash : Byte.isAscii Byte.backslash = true := by decide
    constructor
    · by_cases other : b = Byte.backslash
      · simp [write, inAsciiFrom, other, backslash, (ih text).2]
      · by_cases high : Byte.isAscii b = true <;> simp [write, inAsciiFrom, other, high, (ih _).1]
    · by_cases high : Byte.isAscii b = true <;> simp [write, inAsciiFrom, high, (ih _).1]

/-- A pattern can be written in one pass, byte after byte. -/
theorem inAscii_eq_foldl (p : Bytes) : inAscii p = (p.foldl write ([], false)).1 :=
  (foldl_write p []).1.symm

end Pattern

end AwkCore
