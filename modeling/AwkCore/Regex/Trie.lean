import AwkCore.Bytes

/-!
# Tries of words in order

A trie holds words so that earlier ones are preferred. The edges of a node stand in a row, latest
first, and the end of a word cuts the row: a word added later shares no edge from before the cut.
-/
namespace AwkCore

/-- A node is the row of its edges and cuts. -/
inductive Trie
  | leaf
  | stop (rest : Trie)
  | edge (b : Byte) (child rest : Trie)
  deriving DecidableEq, Repr

namespace Trie

def isLeaf : Trie → Bool
  | leaf => true
  | stop rest => rest.isLeaf
  | edge _ _ _ => false

def ofWord (word : Bytes) : Trie := word.foldr (fun b child => edge b child leaf) (stop leaf)

/-- End a word at a node. A second end before any edge changes nothing. -/
def cut : Trie → Trie
  | stop leaf => stop leaf
  | t => stop t

/-- The child of a byte among the edges after the last cut. -/
def child? (b : Byte) : Trie → Option Trie
  | edge c child rest => if c = b then some child else rest.child? b
  | _ => none

def replace (b : Byte) (t new : Trie) : Trie :=
  match t with
  | edge c child rest => if c = b then edge c new rest else edge c child (rest.replace b new)
  | t => t

def insert : Bytes → Trie → Trie
  | [], t => t.cut
  | b :: word, t =>
    match t.child? b with
    | some child => t.replace b (insert word child)
    | none => edge b (ofWord word) t

def ofWords (words : List Bytes) : Trie := words.foldl (fun t word => insert word t) leaf

end Trie

end AwkCore
