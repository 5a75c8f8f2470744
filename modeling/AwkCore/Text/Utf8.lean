import AwkCore.Bytes

/-!
# Reading bytes as UTF-8

`decode` reads well-formed sequences as the characters they encode. Of anything else it replaces
each longest beginning of a well-formed sequence, or else a single byte, by U+FFFD.
-/
namespace AwkCore.Utf8

def replacement : Char := Char.ofNat 0xfffd

/-- Byte ranges that must follow a lead byte, in order; none for a byte that leads nothing. -/
def followers (lead : Byte) : Option (List (Byte × Byte)) :=
  if lead < 0x80 then some []
  else if lead < 0xc2 then none
  else if lead < 0xe0 then some [(0x80, 0xbf)]
  else if lead == 0xe0 then some [(0xa0, 0xbf), (0x80, 0xbf)]
  else if lead == 0xed then some [(0x80, 0x9f), (0x80, 0xbf)]
  else if lead < 0xf0 then some [(0x80, 0xbf), (0x80, 0xbf)]
  else if lead == 0xf0 then some [(0x90, 0xbf), (0x80, 0xbf), (0x80, 0xbf)]
  else if lead < 0xf4 then some [(0x80, 0xbf), (0x80, 0xbf), (0x80, 0xbf)]
  else if lead == 0xf4 then some [(0x80, 0x8f), (0x80, 0xbf), (0x80, 0xbf)]
  else none

def leadBits (lead : Byte) : Nat :=
  if lead < 0x80 then lead.toNat
  else if lead < 0xe0 then lead.toNat % 0x20
  else if lead < 0xf0 then lead.toNat % 0x10
  else lead.toNat % 0x08

/-- An open sequence: the range its next byte must be in, those after it, and the bits so far. -/
structure Partial where
  next : Byte × Byte
  later : List (Byte × Byte)
  code : Nat
  deriving DecidableEq, Repr

/-- Start a sequence at a byte: a whole character, a replacement, or an open sequence. -/
def start (b : Byte) : List Char × Option Partial :=
  match followers b with
  | none => ([replacement], none)
  | some [] => ([Char.ofNat b.toNat], none)
  | some (next :: later) => ([], some ⟨next, later, leadBits b⟩)

/-- Continue an open sequence, or end it with a replacement and start anew at this byte. -/
def Partial.step (p : Partial) (b : Byte) : List Char × Option Partial :=
  if p.next.1 ≤ b && b ≤ p.next.2 then
    let code := p.code * 64 + b.toNat % 64
    match p.later with
    | [] => ([Char.ofNat code], none)
    | next :: later => ([], some ⟨next, later, code⟩)
  else (replacement :: (start b).1, (start b).2)

def decodeFrom : Option Partial → Bytes → List Char
  | none, [] => []
  | some _, [] => [replacement]
  | none, b :: bs => (start b).1 ++ decodeFrom (start b).2 bs
  | some p, b :: bs => (p.step b).1 ++ decodeFrom (p.step b).2 bs

def decode (bytes : Bytes) : List Char := decodeFrom none bytes

def lossy (bytes : Bytes) : String := String.ofList (decode bytes)

def encode (s : String) : Bytes := s.toUTF8.toList

/-- Well-formedness: decoding and encoding again gives the bytes back. -/
def isValid (bytes : Bytes) : Bool := encode (lossy bytes) == bytes

end AwkCore.Utf8
