import AwkCore.Regex.Nested
import AwkCore.Regex.Reduced

/-!
# Reading regular expressions

A pattern is cut into pieces (atoms, parentheses, bars and repetitions), and the pieces are put
together with a stack of open groups. Patterns are ASCII; other bytes are written as hexadecimal
escapes. A repetition needs something before it, a digit or an unknown letter after a backslash is
refused, and so is every bracket that is not closed.
-/
namespace AwkCore.Regex

inductive Piece
  | atom (r : Nested Regex)
  | opening
  | closing
  | bar
  | repetition (low : Nat) (high : Option Nat)
  deriving DecidableEq, Repr

/-- What a backslash and the bytes after it stand for. -/
inductive Escaped
  | byte (b : Byte)
  | text (bytes : Bytes)
  | set (s : ByteSet)
  | assertion (a : Assertion)
  deriving DecidableEq, Repr

def classLetter? (c : Byte) : Option ByteSet :=
  if c = 0x64 then some ByteSet.digit
  else if c = 0x44 then some ByteSet.digit.compl
  else if c = 0x73 then some ByteSet.space
  else if c = 0x53 then some ByteSet.space.compl
  else if c = 0x77 then some ByteSet.word
  else if c = 0x57 then some ByteSet.word.compl
  else none

def controlLetter? (c : Byte) : Option Byte :=
  if c = 0x61 then some 0x07
  else if c = 0x66 then some 0x0c
  else if c = 0x6e then some 0x0a
  else if c = 0x72 then some 0x0d
  else if c = 0x74 then some 0x09
  else if c = 0x76 then some 0x0b
  else none

def assertionLetter? (c : Byte) : Option Assertion :=
  if c = 0x41 then some .textStart
  else if c = 0x7a then some .textEnd
  else if c = 0x62 then some .wordBoundary
  else if c = 0x42 then some .noWordBoundary
  else if c = 0x3c then some .wordStart
  else if c = 0x3e then some .wordEnd
  else none

/-- Letters that open a hexadecimal escape, with the number of digits that follow. -/
def hexLetter? (c : Byte) : Option Nat :=
  if c = 0x78 then some 2
  else if c = 0x75 then some 4
  else if c = 0x55 then some 8
  else none

def hexNumber? (digits : Bytes) : Option Nat :=
  if digits.isEmpty then none
  else digits.foldl (fun n d => do return 16 * (← n) + (← Byte.hexValue? d)) (some 0)

/-- A character by its code, as the bytes that encode it. -/
def character? (code : Nat) : Option Escaped :=
  if code < 0x80 then some (.byte code.toUInt8)
  else if code.isValidChar then some (.text (Char.ofNat code).toString.toUTF8.toList)
  else none

def inBraces? (s : Bytes) : Option Bytes :=
  let body := s.takeWhile (· ≠ 0x7d)
  if (s.drop body.length).isEmpty then none else some body

/-- A hexadecimal escape after its letter: digits in braces, or as many as the letter asks for. Two
digits without braces stand for a byte, all others for a character. -/
def readHex (width : Nat) (s : Bytes) : Option (Escaped × Nat) :=
  match s with
  | 0x7b :: rest => do
    let digits ← inBraces? rest
    return (← character? (← hexNumber? digits), digits.length + 2)
  | _ =>
    let digits := s.take width
    if digits.length < width then none
    else do
      let code ← hexNumber? digits
      if width = 2 then return (.byte code.toUInt8, width)
      else return (← character? code, width)

/-- An escape, read after its backslash, with the number of bytes it takes there. -/
def readEscape : Bytes → Option (Escaped × Nat)
  | [] => none
  | c :: rest =>
    match classLetter? c, controlLetter? c, assertionLetter? c, hexLetter? c with
    | some set, _, _, _ => some (.set set, 1)
    | _, some b, _, _ => some (.byte b, 1)
    | _, _, some a, _ => some (.assertion a, 1)
    | _, _, _, some width => (readHex width rest).map fun (e, used) => (e, used + 1)
    | none, none, none, none =>
      if Byte.isLetter c || Byte.isDigit c then none else some (.byte c, 1)

inductive SetOperator
  | inter | diff | symmDiff
  deriving DecidableEq, Repr

def SetOperator.apply : SetOperator → ByteSet → ByteSet → ByteSet
  | inter => ByteSet.inter
  | diff => ByteSet.diff
  | symmDiff => ByteSet.symmDiff

/-- An open bracket: whether it is negated, the operation that waits for its right side, and the
items since. -/
structure Bracket where
  negated : Bool
  pending : Option (Nested ByteSet × SetOperator)
  items : List (Nested ByteSet)
  deriving DecidableEq, Repr

namespace Bracket

def add (s : Nested ByteSet) (b : Bracket) : Bracket := { b with items := s :: b.items }

/-- The set so far; operations apply from left to right. -/
def value (b : Bracket) : Nested ByteSet :=
  let items := Nested.gather ByteSet.unions b.items
  match b.pending with
  | some (left, o) => Nested.join o.apply left items
  | none => items

def operate (o : SetOperator) (b : Bracket) : Bracket :=
  { b with pending := some (b.value, o), items := [] }

def close (b : Bracket) : Nested ByteSet := b.value.inside (ByteSet.complIf b.negated)

/-- A bracket after its first byte: a caret negates it, dashes that come first are plain, and so is
a closing bracket that comes first. The number counts the bytes taken. -/
def start (s : Bytes) : Bracket × Nat :=
  let negated := s.head? = some 0x5e
  let s := if negated then s.drop 1 else s
  let dashes := (s.takeWhile (· = 0x2d)).length
  let closing := dashes = 0 ∧ s.head? = some 0x5d
  let items := if closing then [0x5d] else List.replicate dashes 0x2d
  (⟨negated, none, items.map (Nested.flat ∘ ByteSet.single)⟩,
    (if negated then 1 else 0) + dashes + (if closing then 1 else 0))

end Bracket

/-- A named class such as `[:alpha:]`, read after its first bracket. -/
def readNamed (s : Bytes) : Option (ByteSet × Nat) :=
  match s with
  | 0x3a :: rest =>
    let negated := rest.head? = some 0x5e
    let body := if negated then rest.drop 1 else rest
    let name := body.takeWhile (· ≠ 0x3a)
    if (body.drop name.length).take 2 = [0x3a, 0x5d] then do
      let set ← ByteSet.named? name
      return (set.complIf negated, (if negated then 1 else 0) + name.length + 3)
    else none
  | _ => none

/-- A byte or a class inside brackets that starts with a given byte. -/
def readItem (c : Byte) (rest : Bytes) : Option (Escaped × Nat) :=
  if c = Byte.backslash then
    match readEscape rest with
    | some (.byte b, used) => some (.byte b, used)
    | some (.set s, used) => some (.set s, used)
    | _ => none
  else some (.byte c, 0)

/-- An item or a range of bytes. A dash is plain before a closing bracket or another dash. -/
def readRange (c : Byte) (rest : Bytes) : Option (ByteSet × Nat) := do
  let (item, used) ← readItem c rest
  let single : Option (ByteSet × Nat) := match item with
    | .byte b => some (ByteSet.single b, used)
    | .set s => some (s, used)
    | _ => none
  match rest.drop used with
  | 0x2d :: d :: more =>
    if d = 0x5d ∨ d = 0x2d then single
    else
      let (last, usedLast) ← readItem d more
      match item, last with
      | .byte low, .byte high =>
        if low ≤ high then some (ByteSet.range low high, used + 2 + usedLast) else none
      | _, _ => none
  | _ => single

/-- Operators between the items of a bracket are doubled bytes. -/
def setOperator? (c : Byte) (rest : Bytes) : Option SetOperator :=
  if rest.head? ≠ some c then none
  else if c = 0x26 then some .inter
  else if c = 0x2d then some .diff
  else if c = 0x7e then some .symmDiff
  else none

/-- The rest of a bracket, up to the end of the outermost one, with the number of bytes it takes;
`used` of them are dealt with and `taken` have been passed. -/
def readBracket (outer : List Bracket) (b : Bracket) (taken : Nat) : (used : Nat) → Bytes →
    Option (Nested ByteSet × Nat)
  | _, [] => none
  | used + 1, _ :: s => readBracket outer b (taken + 1) used s
  | 0, c :: s =>
    if c = 0x5b then
      match readNamed s with
      | some (set, used) => readBracket outer (b.add (Nested.flat set)) (taken + 1) used s
      | none =>
        let (inner, used) := Bracket.start s
        readBracket (b :: outer) inner (taken + 1) used s
    else if c = 0x5d then
      match outer with
      | [] => some (b.close, taken + 1)
      | next :: outer => readBracket outer (next.add b.close) (taken + 1) 0 s
    else match setOperator? c s with
      | some o => readBracket outer (b.operate o) (taken + 1) 1 s
      | none =>
        match readRange c s with
        | some (set, used) => readBracket outer (b.add (Nested.flat set)) (taken + 1) used s
        | none => none

def countLimit : Nat := Nat.pow 2 32

def isBraceSpace (b : Byte) : Bool := b == 0x20 || (0x09 ≤ b && b ≤ 0x0d)

/-- A count with blanks around it, and what follows. -/
def readCount (s : Bytes) : Option (Nat × Bytes) :=
  let s := s.dropWhile isBraceSpace
  let digits := s.takeWhile Byte.isDigit
  let n := digits.foldl (fun n d => 10 * n + Byte.digitValue d) 0
  if digits.isEmpty || countLimit ≤ n then none
  else some (n, (s.drop digits.length).dropWhile isBraceSpace)

/-- The bounds of a counted repetition, read from what its braces hold. -/
def readBounds (body : Bytes) : Option (Nat × Option Nat) := do
  let (low, rest) ← readCount body
  match rest with
  | [] => return (low, some low)
  | [0x2c] => return (low, none)
  | 0x2c :: rest =>
    let (high, rest) ← readCount rest
    if rest.isEmpty && low ≤ high then some (low, some high) else none
  | _ => none

/-- A repetition takes a question mark right after it too, which asks for the shortest match and so
makes no difference to whether there is one. -/
def lazyMark (rest : Bytes) : Nat := if rest.head? = some 0x3f then 1 else 0

/-- The piece that starts with a byte, and how many of the bytes after it belong to it. -/
def readPiece (c : Byte) (rest : Bytes) : Option (Piece × Nat) :=
  if c = 0x28 then some (.opening, 0)
  else if c = 0x29 then some (.closing, 0)
  else if c = 0x7c then some (.bar, 0)
  else if c = 0x2a then some (.repetition 0 none, lazyMark rest)
  else if c = 0x2b then some (.repetition 1 none, lazyMark rest)
  else if c = 0x3f then some (.repetition 0 (some 1), lazyMark rest)
  else if c = 0x7b then do
    let body ← inBraces? rest
    let (low, high) ← readBounds body
    let used := body.length + 1
    return (.repetition low high, used + lazyMark (rest.drop used))
  else if c = 0x5b then do
    let (b, used) := Bracket.start rest
    let (set, taken) ← readBracket [] b 0 used rest
    return (.atom (set.map one), taken)
  else if c = 0x2e then some (.atom (Nested.flat (one ByteSet.notNewline)), 0)
  else if c = 0x5e then some (.atom (Nested.flat (assertion .textStart)), 0)
  else if c = 0x24 then some (.atom (Nested.flat (assertion .textEnd)), 0)
  else if c = Byte.backslash then do
    let (e, used) ← readEscape rest
    let atom := match e with
      | .byte b => byte b
      | .text bytes => sequence (bytes.map byte)
      | .set s => one s
      | .assertion a => assertion a
    return (.atom (Nested.flat atom), used)
  else some (.atom (Nested.flat (byte c)), 0)

/-- Cut a pattern into pieces; `used` bytes belong to the piece before. -/
def readPieces : (used : Nat) → Bytes → Option (List Piece)
  | _, [] => some []
  | used + 1, _ :: s => readPieces used s
  | 0, c :: s =>
    match readPiece c s with
    | some (piece, used) => (readPieces used s).map (piece :: ·)
    | none => none

/-- An open group: its branches before the last bar and the atoms since, both latest first. -/
structure Open where
  branches : List (Nested Regex)
  atoms : List (Nested Regex)
  deriving DecidableEq, Repr

namespace Open

def new : Open := ⟨[], []⟩

def push (g : Open) (r : Nested Regex) : Open := { g with atoms := r :: g.atoms }

def branch (g : Open) : Nested Regex := Nested.gather sequence g.atoms.reverse

def endBranch (g : Open) : Open := ⟨g.branch :: g.branches, []⟩

def close (g : Open) : Nested Regex := Nested.gather choice (g.branch :: g.branches).reverse

end Open

/-- Put pieces together; a repetition applies to the atom before it. -/
def assemble (outer : List Open) (g : Open) : List Piece → Option (Nested Regex)
  | [] => if outer.isEmpty then some g.close else none
  | .atom r :: ps => assemble outer (g.push r) ps
  | .opening :: ps => assemble (g :: outer) Open.new ps
  | .closing :: ps =>
    match outer with
    | [] => none
    | next :: outer => assemble outer (next.push (g.close.inside group)) ps
  | .bar :: ps => assemble outer g.endBranch ps
  | .repetition low high :: ps =>
    match g.atoms with
    | [] => none
    | r :: atoms => assemble outer { g with atoms := r.inside (copies low high) :: atoms } ps

/-- The expression that a pattern writes, if it is well formed and not nested too deeply. -/
def parse? (pattern : Bytes) : Option Regex := do
  let r ← assemble [] Open.new (← readPieces 0 pattern)
  if r.withinLimit then some r.value else none

end AwkCore.Regex
