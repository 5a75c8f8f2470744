import AwkCore.Buffer
import AwkCore.Pool

/-!
# Strings by handle

Strings are handles on shared buffers. An operation that changes a string works in place only for
the sole holder of its buffer; any other holder gets a buffer of its own first, so that no change is
seen through another handle. Such an operation answers the handle to go on with.
-/
namespace AwkCore

structure TextRef where
  place : Nat
  deriving DecidableEq, Repr

abbrev Texts := Pool Buffer

namespace Texts

def buffer (t : Texts) (r : TextRef) : Buffer := (t.get? r.place).getD (Buffer.ofBytes [])

def bytes (t : Texts) (r : TextRef) : Bytes := (t.buffer r).content

def holders (t : Texts) (r : TextRef) : Nat := Pool.holders t r.place

def create (t : Texts) (b : Buffer) : Texts × TextRef :=
  let r : TextRef := ⟨t.fresh⟩
  (t.add b, r)

def share (t : Texts) (r : TextRef) : Texts := t.retain r.place

def drop (t : Texts) (r : TextRef) : Texts := (t.release r.place).1

/-- Change the content in place for a sole holder, and in a fresh buffer without room to spare for
any other. -/
def replace (t : Texts) (r : TextRef) (content : Bytes) : Texts × TextRef :=
  if t.holders r = 1 then (Pool.set t r.place ((t.buffer r).setContent content), r)
  else (t.drop r).create (Buffer.ofBytes content)

/-- Keep the content up to an offset, at most its length, and write bytes after it. -/
def update (t : Texts) (r : TextRef) (offset : Nat) (bytes : Bytes) : Texts × TextRef :=
  t.replace r ((t.bytes r).take offset ++ bytes)

def push (t : Texts) (r : TextRef) (bytes : Bytes) : Texts × TextRef :=
  t.update r (t.buffer r).length bytes

/-- Append the content of another string. A handle on it is held meanwhile, so that a string
appended to itself counts as shared. -/
def extend (t : Texts) (r source : TextRef) : Texts × TextRef :=
  if t.bytes source = [] then (t, r)
  else
    let (t, r) := (t.share source).push r (t.bytes source)
    (t.drop source, r)

/-- Take over the content of another string. Handles on one buffer are left as they are. -/
def copyFrom (t : Texts) (r source : TextRef) : Texts × TextRef :=
  if r = source then (t, r) else t.replace r (t.bytes source)

end Texts

end AwkCore
