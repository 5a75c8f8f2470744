import Mathlib.Data.List.Infix
import AwkCore.Regex.Marked
import AwkCore.Regex.Reduced

/-!
# Search for a row of bytes

The marks on a row of bytes tell which beginnings of the row end what has been read so far. So the row is
found in a subject exactly if its bytes stand somewhere in it, one after another.
-/
namespace AwkCore

theorem ByteSet.contains_single (b c : Byte) : (single b).contains c = (b == c) := by
  have lt := c.toNat_lt
  have power : Nat.pow 2 (b.toNat + 1 - b.toNat) - 1 = 1 := by simp
  rw [contains, single, range, power, BitVec.getLsbD_ofNat, Nat.shiftLeft_eq, Nat.one_mul,
    Nat.testBit_two_pow, decide_eq_true lt, Bool.true_and, Bool.eq_iff_iff]
  simp [UInt8.toNat_inj]

namespace Places

variable {s : Places} {p : Place}

@[simp] theorem none_inter : none.inter s = none := by simp [none, inter]

@[simp] theorem inter_none : s.inter none = none := by simp [none, inter]

@[simp] theorem none_union : none.union s = s := by simp [none, union]

@[simp] theorem contains_none : none.contains p = false := by simp [none, contains]

@[simp] theorem contains_all : all.contains p = true := by
  obtain ⟨before, after⟩ := p
  cases before <;> cases after <;> decide

end Places

namespace Marked

variable {b : Byte} {enter : Bool} {p : Place} {ps : List (Byte × Bool)} {s u v : Bytes}

/-- A row of bytes, each of them marked or not. -/
def ofRow : List (Byte × Bool) → Marked
  | [] => empty
  | [(b, marked)] => one (ByteSet.single b) marked
  | (b, marked) :: q :: ps => ofSeq false (one (ByteSet.single b) marked) (ofRow (q :: ps))

/-- Where a mark on a byte has come to its end. -/
def ends (marked : Bool) : Places := if marked then Places.all else Places.none

/-- The marks of a row move on by one when a byte is read, where they fit. -/
def shiftRow (b : Byte) : (enter : Bool) → List (Byte × Bool) → List (Byte × Bool)
  | _, [] => []
  | enter, (c, marked) :: ps => (c, enter && c == b) :: shiftRow b marked ps

theorem ofRegex_row (s : Bytes) :
    ofRegex (Regex.row (s.map Regex.byte)) = ofRow (s.map (·, false)) := by
  induction s with
  | nil => rfl
  | cons b s ih =>
    cases s with
    | nil => rfl
    | cons c s => exact congrArg (ofSeq false _) ih

theorem marks_seq (early : Bool) (r s : Marked) (m : Marks) : (seq early r s m).marks = m := rfl

theorem marks_one (set : ByteSet) (marked : Bool) : (one set marked).marks =
    ⟨Places.none, ends marked, ends marked, marked⟩ := rfl

/-- A row comes to its end where its last byte is marked. -/
theorem marks_ofRow (nonempty : ps ≠ []) : (ofRow ps).marks =
    ⟨Places.none, ends (ps.getLast?.any Prod.snd), ends (ps.getLast?.any Prod.snd),
      ps.any Prod.snd⟩ := by
  induction ps with
  | nil => contradiction
  | cons q ps ih =>
    obtain ⟨b, marked⟩ := q
    cases ps with
    | nil => simp [ofRow, marks_one]
    | cons r ps =>
      have rest := ih (by simp)
      rw [ofRow, ofSeq, marks_seq, marks_one, rest, List.getLast?_cons_cons, List.any_cons]
      simp

theorem shiftRow_unmarked (none : ps.any Prod.snd = false) : shiftRow b false ps = ps := by
  induction ps with
  | nil => rfl
  | cons q ps ih =>
    obtain ⟨c, marked⟩ := q
    rw [List.any_cons, Bool.or_eq_false_iff] at none
    obtain ⟨rfl, rest⟩ := none
    rw [shiftRow, ih rest, Bool.false_and]

theorem shift_ofSeq (early : Bool) (r s : Marked) : (ofSeq early r s).shift p b enter =
    if !enter && !(r.marks.present || s.marks.present) then ofSeq early r s
    else ofSeq early (r.shift p b enter)
      (s.shift p b ((enter && r.marks.passable.contains p) || r.marks.finished.contains p)) := rfl

theorem shift_ofRow (p : Place) (b : Byte) (enter : Bool) (ps : List (Byte × Bool)) :
    (ofRow ps).shift p b enter = ofRow (shiftRow b enter ps) := by
  induction ps generalizing enter with
  | nil => rfl
  | cons q ps ih =>
    obtain ⟨c, marked⟩ := q
    cases ps with
    | nil => rw [ofRow, shift, ByteSet.contains_single, shiftRow, shiftRow, ofRow]
    | cons r ps =>
      have through : (enter && Places.none.contains p || (ends marked).contains p) = marked := by
        cases marked <;> simp [ends]
      rw [ofRow, shift_ofSeq, marks_one, marks_ofRow (List.cons_ne_nil r ps), through, ih, shift,
        ByteSet.contains_single]
      split
      -- Parts without marks are not visited when none comes in, and reading would not change them.
      · rename_i still
        obtain ⟨rfl, unmarked⟩ : enter = false ∧ ((c, marked) :: r :: ps).any Prod.snd = false := by
          rwa [Bool.and_eq_true, Bool.not_eq_true', Bool.not_eq_true'] at still
        rw [shiftRow_unmarked unmarked, ofRow]
      · rfl

/-- The marks on a row that stands behind some bytes, when a text has been read: on each byte up to
which the row ends the text. -/
def trail (u : Bytes) : (v s : Bytes) → List (Byte × Bool)
  | _, [] => []
  | v, c :: s => (c, decide (v ++ [c] <:+ u)) :: trail u (v ++ [c]) s

theorem concat_suffix_concat {c : Byte} : v ++ [c] <:+ u ++ [b] ↔ v <:+ u ∧ c = b := by
  rw [List.suffix_concat_iff]
  simp only [List.append_singleton_inj]
  constructor
  · rintro (none | ⟨t, ⟨rfl, rfl⟩, suffix⟩)
    · simp at none
    · exact ⟨suffix, rfl⟩
  · rintro ⟨suffix, rfl⟩
    exact .inr ⟨v, ⟨rfl, rfl⟩, suffix⟩

theorem trail_nil (v s : Bytes) : trail [] v s = s.map (·, false) := by
  induction s generalizing v with
  | nil => rfl
  | cons c s ih => simp [trail, ih]

theorem shiftRow_trail (u v s : Bytes) (b : Byte) :
    shiftRow b (decide (v <:+ u)) (trail u v s) = trail (u ++ [b]) v s := by
  induction s generalizing v with
  | nil => rfl
  | cons c s ih =>
    have here : (decide (v <:+ u) && c == b) = decide (v ++ [c] <:+ u ++ [b]) := by
      rw [Bool.eq_iff_iff]
      simp [concat_suffix_concat]
    rw [trail, shiftRow, ih, here, trail]

theorem getLast?_trail (nonempty : s ≠ []) :
    (trail u v s).getLast?.any Prod.snd = decide (v ++ s <:+ u) := by
  induction s generalizing v with
  | nil => contradiction
  | cons c s ih =>
    cases s with
    | nil => rfl
    | cons d s =>
      have last := ih (v := v ++ [c]) (by simp)
      rwa [List.append_assoc] at last

theorem accepts_trail (p : Place) (u s : Bytes) :
    (ofRow (trail u [] s)).accepts p = true ↔ s <:+ u := by
  cases s with
  | nil => simp [trail, ofRow, accepts, marks]
  | cons c s =>
    have last := getLast?_trail (u := u) (v := []) (List.cons_ne_nil c s)
    rw [accepts, marks_ofRow (by simp [trail])]
    by_cases found : c :: s <:+ u <;> simp [last, found, ends]

/-- The row is found when it ends what has been read at some place further on. -/
theorem searchFrom_trail (before : Neighbour) (u s subject : Bytes) :
    (ofRow (trail u [] s)).searchFrom before subject = true ↔
      ∃ w, w <+: subject ∧ s <:+ u ++ w := by
  -- A new mark comes in before each byte, since the empty beginning of the row ends every text.
  induction subject generalizing before u with
  | nil => simp [searchFrom, accepts_trail]
  | cons b bs ih =>
    have moved := shiftRow_trail u [] s b
    rw [decide_eq_true List.nil_suffix] at moved
    rw [searchFrom, Bool.or_eq_true, accepts_trail, shift_ofRow, moved, ih]
    simp only [List.prefix_cons_iff]
    constructor
    · rintro (ends | ⟨w, front, ends⟩)
      · exact ⟨[], .inl rfl, by simpa using ends⟩
      · exact ⟨b :: w, .inr ⟨w, rfl, front⟩, by simpa using ends⟩
    · rintro ⟨w, rfl | ⟨t, rfl, front⟩, ends⟩
      · exact .inl (by simpa using ends)
      · exact .inr ⟨t, front, by simpa using ends⟩

end Marked

/-- Search finds a row of bytes exactly where the bytes stand. -/
theorem Regex.search_row (s subject : Bytes) :
    (row (s.map byte)).search subject = true ↔ s <:+: subject := by
  rw [search, Marked.ofRegex_row, ← Marked.trail_nil [] s, Marked.searchFrom_trail,
    List.infix_iff_suffix_prefix]
  simp [and_comm]

end AwkCore
