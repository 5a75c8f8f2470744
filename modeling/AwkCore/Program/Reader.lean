import AwkCore.Program.Stream

/-!
# Reading a program byte by byte

A reader holds one line of a program and gives its bytes one after another. When the line is used up
it takes the next one, from an inline text or from the unit that is open, and opens the next unit
when that has no line left. Once nothing is left it gives a line feed, if the last byte read was
none.
-/
namespace AwkCore

/-- A text cut after its first line feed. -/
def Bytes.untilNewline : Bytes → Bytes × Bytes
  | [] => ([], [])
  | b :: bs =>
    if b = Byte.newline then ([b], bs)
    else let (line, rest) := Bytes.untilNewline bs; (b :: line, rest)

theorem Bytes.untilNewline_append (text : Bytes) :
    text.untilNewline.1 ++ text.untilNewline.2 = text := by
  induction text with
  | nil => rfl
  | cons b bs ih =>
    rw [Bytes.untilNewline]
    split
    · rfl
    · exact congrArg (b :: ·) ih

/-- The length of the first line, with its line feed. -/
def Bytes.lineLength (text : Bytes) : Nat :=
  (text.findIdx? (· = Byte.newline)).elim text.length (· + 1)

/-- What has not been read: the rest of an inline text, or the rest of the unit that is open, if one
is, and the units waiting behind it. -/
inductive Supply
  | text (rest : Bytes)
  | units (opened : Option Bytes) (waiting : List SourceUnit)

/-- The number of bytes that have not been read. A unit that cannot be read has none. -/
def Supply.size : Supply → Nat
  | .text rest => rest.length
  | .units opened waiting =>
    (opened.getD [] ++ waiting.flatMap fun u => u.body.toOption.getD []).length

/-- The first `position` bytes of the line have been given. `last?` is the last byte of the line
that was read last, and `linesRead` counts the lines read so far. -/
structure Reader where
  supply : Supply
  line : Bytes
  position : Nat
  location : Location
  last? : Option Byte
  linesRead : Nat

namespace Reader

def start (location : Location) (supply : Supply) : Reader := ⟨supply, [], 0, location, none, 0⟩

def inline (text : Bytes) : Reader := start ⟨inlineName, 0⟩ (.text text)

def ofUnits (units : List SourceUnit) : Reader := start ⟨"", 0⟩ (.units none units)

/-- The next line of the open unit, if it has one left. -/
def takeOpened (r : Reader) (rest : Bytes) (waiting : List SourceUnit) : Option Reader :=
  let (line, rest) := rest.untilNewline
  if line.isEmpty then none else some { r with supply := .units (some rest) waiting, line }

/-- A unit without a line empties the line that is held. The position stays. -/
def openWaiting (r : Reader) : List SourceUnit → Except Failure (Bool × Reader)
  | [] => .ok (false, { r with supply := .units none [] })
  | u :: us =>
    match u.body with
    | .error failure => .error failure
    | .ok text =>
      let r := { r with location := ⟨u.name, 0⟩, line := [] }
      match r.takeOpened text us with
      | some r => .ok (true, r)
      | none => r.openWaiting us

/-- Whether there was a line left. -/
def readLine (r : Reader) : Except Failure (Bool × Reader) :=
  match r.supply with
  | .text rest =>
    if rest.isEmpty then .ok (false, r)
    else
      let length := rest.lineLength
      .ok (true, { r with supply := .text (rest.drop length), line := rest.take length })
  | .units none waiting => r.openWaiting waiting
  | .units (some rest) waiting =>
    match r.takeOpened rest waiting with
    | some r => .ok (true, r)
    | none => { r with line := [] }.openWaiting waiting

/-- The line that is held has just been read. -/
def beginLine (r : Reader) : Reader :=
  { r with
    position := 0
    location := ⟨r.location.unit, r.location.line + 1⟩
    last? := r.line.getLast?
    linesRead := r.linesRead + 1 }

/-- The line feed that is supplied stands on the line read last, and it is supplied once. -/
def supplyNewline (r : Reader) : Reader :=
  { r with line := [Byte.newline], position := 0, last? := some Byte.newline }

def refill (r : Reader) : Except Failure (Bool × Reader) :=
  match r.readLine with
  | .error failure => .error failure
  | .ok (true, r) => .ok (true, r.beginLine)
  | .ok (false, r) =>
    if r.last? = some Byte.newline then .ok (false, r) else .ok (true, r.supplyNewline)

/-- Line feeds to be supplied behind a last byte. -/
def owed (last? : Option Byte) : Nat := if last? = some Byte.newline then 0 else 1

theorem owed_le (last? : Option Byte) : owed last? ≤ 1 := by
  unfold owed
  split <;> decide

/-- Reading a line takes from what is left, even if another line feed is owed behind it. -/
def pending (r : Reader) : Nat := 2 * r.supply.size + owed r.last?

theorem takeOpened_size {r t : Reader} {rest : Bytes} {waiting : List SourceUnit}
    (taken : r.takeOpened rest waiting = some t) :
    t.last? = r.last? ∧ t.supply.size < (Supply.units (some rest) waiting).size := by
  have length := congrArg List.length rest.untilNewline_append
  rw [List.length_append] at length
  simp only [takeOpened, Option.ite_none_left_eq_some, Option.some.injEq] at taken
  obtain ⟨nonempty, rfl⟩ := taken
  have positive := List.length_pos_iff.mpr (mt List.isEmpty_iff.mpr nonempty)
  refine ⟨rfl, ?_⟩
  simp only [Supply.size, Option.getD_some, List.length_append]
  omega

theorem openWaiting_size {r t : Reader} {waiting : List SourceUnit} {more : Bool}
    (ok : r.openWaiting waiting = .ok (more, t)) :
    t.last? = r.last? ∧
      t.supply.size + more.toNat ≤ (Supply.units none waiting).size := by
  induction waiting generalizing r with
  | nil =>
    cases ok
    exact ⟨rfl, Nat.le_refl _⟩
  | cons u us ih =>
    rw [openWaiting] at ok
    cases body : u.body with
    | error failure => simp [body] at ok
    | ok text =>
      simp only [body] at ok
      cases taken : { r with location := ⟨u.name, 0⟩, line := [] : Reader }.takeOpened text us with
      | some s =>
        simp only [taken, Except.ok.injEq, Prod.mk.injEq] at ok
        obtain ⟨rfl, rfl⟩ := ok
        obtain ⟨last, size⟩ := takeOpened_size taken
        refine ⟨last, Nat.le_trans size ?_⟩
        simp [Supply.size, body, Except.toOption]
      | none =>
        simp only [taken] at ok
        obtain ⟨last, size⟩ := ih ok
        refine ⟨last, Nat.le_trans size ?_⟩
        simp [Supply.size]

theorem readLine_size {r t : Reader} {more : Bool} (ok : r.readLine = .ok (more, t)) :
    t.last? = r.last? ∧ t.supply.size + more.toNat ≤ r.supply.size := by
  unfold readLine at ok
  split at ok
  case h_1 rest supply =>
    rw [supply]
    split at ok
    · cases ok
      exact ⟨rfl, by simp [supply]⟩
    · rename_i nonempty
      have positive := List.length_pos_iff.mpr (mt List.isEmpty_iff.mpr nonempty)
      have length : 0 < rest.lineLength := by
        unfold Bytes.lineLength
        cases rest.findIdx? (· = Byte.newline) with
        | none => exact positive
        | some i => exact Nat.succ_pos i
      cases ok
      refine ⟨rfl, ?_⟩
      simp only [Supply.size, List.length_drop, Bool.toNat_true]
      omega
  case h_2 waiting supply =>
    rw [supply]
    exact openWaiting_size ok
  case h_3 rest waiting supply =>
    rw [supply]
    split at ok
    · rename_i taken
      cases ok
      obtain ⟨last, size⟩ := takeOpened_size taken
      exact ⟨last, size⟩
    · obtain ⟨last, size⟩ := openWaiting_size ok
      refine ⟨last, Nat.le_trans size ?_⟩
      simp [Supply.size]

theorem refill_pending {r t : Reader} (ok : r.refill = .ok (true, t)) : t.pending < r.pending := by
  unfold refill at ok
  split at ok
  case h_1 => cases ok
  case h_2 s read =>
    cases ok
    obtain ⟨_, size⟩ := readLine_size read
    have one := owed_le s.line.getLast?
    simp only [pending, beginLine, Bool.toNat_true] at size ⊢
    omega
  case h_3 s read =>
    split at ok
    · cases ok
    · rename_i last
      cases ok
      obtain ⟨same, size⟩ := readLine_size read
      rw [same] at last
      simp only [pending, owed, supplyNewline, last, if_false, if_true, Bool.toNat_false] at size ⊢
      omega

/-- The next byte, or none at the end. -/
def getChar (r : Reader) : Except Failure (Option Byte × Reader) :=
  match r.line[r.position]? with
  | some b => .ok (some b, { r with position := r.position + 1 })
  | none =>
    match _ok : r.refill with
    | .error failure => .error failure
    | .ok (false, t) => .ok (none, t)
    | .ok (true, t) => t.getChar
termination_by r.pending
decreasing_by exact refill_pending _ok

/-- The call behind some calls, or the first of them that fails. -/
def callAfter : Nat → Reader → Except Failure (Option Byte × Reader)
  | 0, r => r.getChar
  | n + 1, r =>
    match r.getChar with
    | .error failure => .error failure
    | .ok (_, t) => t.callAfter n

/-- Whether the byte at a position is on its line behind one that the scanner sees. -/
def joinedAt (bytes : Bytes) : Nat → Bool
  | 0 => false
  | i + 1 => bytes[i]? ≠ some Byte.carriageReturn

/-- The byte that was given last, with its place. -/
def glyph (r : Reader) (b : Byte) : Glyph :=
  ⟨b, r.location, r.linesRead, joinedAt r.line (r.position - 1)⟩

/-- What the scanner sees of an answer: no carriage return. -/
def seen (answer : Option Byte × Reader) : Option Glyph :=
  (answer.1.filter (· ≠ Byte.carriageReturn)).map answer.2.glyph

end Reader

end AwkCore
