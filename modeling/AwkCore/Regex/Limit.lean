import AwkCore.Regex.Reduced
import AwkCore.Regex.Reverse
import AwkCore.Regex.Trie

/-!
# Limit on the size of expressions

An expression is refused when the automaton for it would take more than ten mebibytes, be it the one
that reads forward or the one that reads backward. Copies that a repetition asks for count as if they
were written out.
-/
namespace AwkCore.Regex

/-- Bytes for a state of an automaton, for an edge that reads a range of bytes, and for an edge that
reads nothing. -/
def stateSize : Nat := 32

def rangeSize : Nat := 8

def edgeSize : Nat := 4

def canBeEmpty : Regex → Bool
  | empty | assertion _ => true
  | one _ => false
  | seq r s => r.canBeEmpty && s.canBeEmpty
  | alt r s => r.canBeEmpty || s.canBeEmpty
  | group r => r.canBeEmpty
  | repeated r low _ => low == 0 || r.canBeEmpty

def hasBytes : Regex → Bool
  | empty | assertion _ => true
  | one set => set ≠ ByteSet.empty
  | seq r s | alt r s => r.hasBytes && s.hasBytes
  | group r | repeated r _ _ => r.hasBytes

/-- Whether an expression matches nowhere but at the start of the text, as far as its assertions tell
before it comes to a byte. -/
def atTextStart : Regex → Bool
  | empty | one _ => false
  | assertion a => a = .textStart
  | seq r s => r.atTextStart || (r.onlyEmpty && s.atTextStart)
  | alt r s => r.atTextStart && s.atTextStart
  | group r => r.atTextStart
  | repeated r low _ => low ≠ 0 && r.atTextStart

def word? : Regex → Option Bytes
  | seq r s => return (← r.word?) ++ (← s.word?)
  | r => r.byte?.map ([·])

/-- The words that a choice of rows of single bytes spells. -/
def words? : Regex → Option (List Bytes)
  | alt r s => return (← r.words?) ++ (← s.words?)
  | r => r.word?.map ([·])

/-- A set of a single byte needs one state, any other set two. -/
def setSize (set : ByteSet) : Nat :=
  if set.byte?.isSome then stateSize else 2 * stateSize + rangeSize * set.runs

/-- Edges from one cut of a trie to the next are one state that reads a range or several. -/
def edgesSize (count : Nat) : Nat :=
  if count = 0 then 0
  else edgeSize + stateSize + (if count = 1 then 0 else rangeSize * count)

/-- Bytes for a node of a trie after `count` edges since the last cut. A node without edges is no
state of its own, since it is where every word ends. -/
def nodeSize (count : Nat) : Trie → Nat
  | .leaf => edgesSize count
  | .stop rest => edgesSize count + edgeSize + nodeSize 0 rest
  | .edge _ child rest =>
    (if child.isLeaf then 0 else stateSize + nodeSize 0 child) + nodeSize (count + 1) rest

/-- Size of a choice of words, with the state where every word ends. -/
def wordsSize (words : List Bytes) : Nat := 2 * stateSize + nodeSize 0 (Trie.ofWords words)

def repeatedSize (r : Regex) (size low : Nat) : Option Nat → Nat
  | none =>
    if low = 0 ∧ (r.canBeEmpty ∨ ¬ r.hasBytes) then size + 3 * stateSize + 4 * edgeSize
    else max low 1 * size + stateSize + 2 * edgeSize
  | some high =>
    if low = high then max stateSize (low * size)
    else
      let optional := (high - low) * (size + stateSize + 2 * edgeSize)
      if low = 0 ∧ 1 < high then 2 * stateSize + optional
      else low * size + stateSize + optional

/-- Bytes for the automaton of an expression, where a group takes `marks` bytes besides its content;
`branch` tells that the expression stands in a choice. -/
def size (marks : Nat) (branch : Bool) : Regex → Nat
  | empty | assertion _ => stateSize + (if branch then edgeSize else 0)
  | one set => setSize set + (if branch then edgeSize else 0)
  | seq r s => r.size marks false + s.size marks false + (if branch then edgeSize else 0)
  | alt r s =>
    if branch then r.size marks true + s.size marks true
    else match (alt r s).words? with
      | some words => wordsSize words
      | none => r.size marks true + s.size marks true + 2 * stateSize
  | group r => r.size marks false + marks + (if branch then edgeSize else 0)
  | repeated r low high =>
    repeatedSize r (r.size marks false) low high + (if branch then edgeSize else 0)

/-- What an automaton has in front of its expression: a loop over any bytes, or a state alone where a
match is at the start of the text. -/
def leadSize (r : Regex) : Nat :=
  if r.atTextStart then stateSize else 3 * stateSize + rangeSize + 2 * edgeSize

/-- The whole automaton: the lead, the expression as a group and the state that accepts. -/
def automatonSize (marks : Nat) (r : Regex) : Nat :=
  r.leadSize + (group r).size marks false + stateSize

def sizeLimit : Nat := 10 * Nat.pow 2 20

/-- As many words make a list of words, which needs no automaton of this kind. -/
def wordListLength : Nat := 3000

def isWordList (r : Regex) : Bool :=
  match r.words? with
  | some words => wordListLength ≤ words.length
  | none => false

/-- Whether an expression fits. Going forward, a group takes two states, and none going backward. -/
def withinLimit (r : Regex) : Bool :=
  r.isWordList ||
    (automatonSize (2 * stateSize) r ≤ sizeLimit && automatonSize 0 r.reverse ≤ sizeLimit)

end AwkCore.Regex
