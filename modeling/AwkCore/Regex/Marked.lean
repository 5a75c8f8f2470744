import AwkCore.Regex

/-!
# Search with marked expressions

A marked expression has marks on the bytes that have just been read in a run through it. To read a
byte is to move every mark on to all bytes that may come next and to keep those that fit. Search
sets out anew before each byte of the subject, so that one pass finds a match wherever it starts.

Every node knows in which places it can be passed without a byte, in which places a mark inside it
has come to its end, and whether there are marks inside it at all. Parts without marks are not
visited, and the copies of a repetition are one node until marks tell them apart. The time for a
byte is therefore bounded by the size of the expression and is mostly far below it.
-/
namespace AwkCore

/-- A set of places: a bit for each pair of neighbours. -/
structure Places where
  bits : UInt16
  deriving DecidableEq, Repr

namespace Places

def neighbourIndex : Neighbour → UInt16
  | .edge => 0
  | .word => 1
  | .other => 2

def bit (p : Place) : UInt16 := 1 <<< (3 * neighbourIndex p.before + neighbourIndex p.after)

def none : Places := ⟨0⟩
def all : Places := ⟨0x1ff⟩
def contains (s : Places) (p : Place) : Bool := s.bits &&& bit p != 0
def union (s t : Places) : Places := ⟨s.bits ||| t.bits⟩
def inter (s t : Places) : Places := ⟨s.bits &&& t.bits⟩

def ofAssertion (a : Assertion) : Places :=
  let sides := [Neighbour.edge, .word, .other]
  ⟨(sides.flatMap fun x => sides.map fun y => (⟨x, y⟩ : Place)).foldl
    (fun bits p => if a.holds p then bits ||| bit p else bits) 0⟩

end Places

/-- What a node knows of itself: the places where it can be passed without a byte, those where a
mark has come to its end, those where a mark has come to an end of the row of optional copies that
it is a piece of, and whether it has marks. -/
structure Marks where
  passable : Places
  finished : Places
  stopped : Places
  present : Bool
  deriving DecidableEq, Repr

/-- The nodes of marked expressions. A sequence that is `early` is a piece of a row of copies in which
one may stop after any copy, and an optional node turns such stops into ends. -/
inductive Marked
  | empty
  | assertion (places : Places)
  | one (set : ByteSet) (marked : Bool)
  | seq (early : Bool) (r s : Marked) (marks : Marks)
  | alt (r s : Marked) (marks : Marks)
  | loop (r : Marked) (marks : Marks)
  | optional (r : Marked) (marks : Marks)
  deriving Repr

namespace Marked

def marks : Marked → Marks
  | empty => ⟨Places.all, Places.none, Places.none, false⟩
  | assertion places => ⟨places, Places.none, Places.none, false⟩
  | one _ marked =>
    let ends := if marked then Places.all else Places.none
    ⟨Places.none, ends, ends, marked⟩
  | seq _ _ _ m | alt _ _ m | loop _ m | optional _ m => m

/-- A sequence, with its knowledge drawn from its parts. -/
def ofSeq (early : Bool) (r s : Marked) : Marked :=
  let m := r.marks
  let n := s.marks
  let finished := (m.finished.inter n.passable).union n.finished
  seq early r s
    ⟨m.passable.inter n.passable, finished,
      if early then m.stopped.union n.stopped else finished, m.present || n.present⟩

def ofAlt (r s : Marked) : Marked :=
  let m := r.marks
  let n := s.marks
  let finished := m.finished.union n.finished
  alt r s ⟨m.passable.union n.passable, finished, finished, m.present || n.present⟩

def ofLoop (r : Marked) : Marked :=
  let m := r.marks
  loop r ⟨m.passable, m.finished, m.finished, m.present⟩

/-- Nothing, or a row of copies up to one of its stops. -/
def ofOptional (r : Marked) : Marked :=
  let m := r.marks
  optional r ⟨Places.all, m.stopped, m.stopped, m.present⟩

/-- A row of equal copies, put together from equal halves. -/
def power (early : Bool) (r : Marked) (n : Nat) : Marked :=
  if n = 0 then empty
  else if n = 1 then r
  else
    let half := power early r (n / 2)
    let double := ofSeq early half half
    if n % 2 = 0 then double else ofSeq early double r
termination_by n

/-- A row of copies with bounds on their number. -/
def copies (r : Marked) (low : Nat) : Option Nat → Marked
  | none =>
    if low = 0 then ofOptional (ofLoop r)
    else if low = 1 then ofLoop r
    else ofSeq false (power false r (low - 1)) (ofLoop r)
  | some high =>
    if high ≤ low then power false r low
    else
      let rest := ofOptional (power true r (high - low))
      if low = 0 then rest else ofSeq false (power false r low) rest

def ofRegex : Regex → Marked
  | .empty => empty
  | .one set => one set false
  | .assertion a => assertion (Places.ofAssertion a)
  | .seq r s => ofSeq false (ofRegex r) (ofRegex s)
  | .alt r s => ofAlt (ofRegex r) (ofRegex s)
  | .group r => ofRegex r
  | .repeated r low high => (ofRegex r).copies low high

/-- Read a byte at a place: marks move on, and with `enter` one more comes in from the left. -/
def shift (p : Place) (b : Byte) (enter : Bool) : Marked → Marked
  | empty => empty
  | assertion places => assertion places
  | one set _ => one set (enter && set.contains b)
  | seq early r s m =>
    if !enter && !m.present then seq early r s m
    else
      let through := (enter && r.marks.passable.contains p) || r.marks.finished.contains p
      ofSeq early (r.shift p b enter) (s.shift p b through)
  | alt r s m =>
    if !enter && !m.present then alt r s m
    else ofAlt (r.shift p b enter) (s.shift p b enter)
  | loop r m =>
    if !enter && !m.present then loop r m
    else ofLoop (r.shift p b (enter || m.finished.contains p))
  | optional r m =>
    if !enter && !m.present then optional r m
    else ofOptional (r.shift p b enter)

/-- Whether a match ends at a place, or an empty one stands there. -/
def accepts (r : Marked) (p : Place) : Bool :=
  r.marks.passable.contains p || r.marks.finished.contains p

def searchFrom (r : Marked) (before : Neighbour) : Bytes → Bool
  | [] => r.accepts ⟨before, .edge⟩
  | b :: bs =>
    let after := Neighbour.ofByte b
    r.accepts ⟨before, after⟩ || searchFrom (r.shift ⟨before, after⟩ b true) after bs

end Marked

def Regex.search (r : Regex) (subject : Bytes) : Bool :=
  (Marked.ofRegex r).searchFrom .edge subject

end AwkCore
