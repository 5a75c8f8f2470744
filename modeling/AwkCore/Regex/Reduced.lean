import AwkCore.Regex

/-!
# Reduced expressions

Expressions are put together in a reduced form. A row has no empty parts and no rows among its parts,
a choice of sets is one set, a choice of rows that begin alike is a row with a shorter choice at its
end, and a repetition that asks for one copy is that copy.
-/
namespace AwkCore.Regex

/-- Whether an expression matches no byte at all. -/
def onlyEmpty : Regex → Bool
  | empty | assertion _ => true
  | one _ => false
  | seq r s | alt r s => r.onlyEmpty && s.onlyEmpty
  | group r => r.onlyEmpty
  | repeated r _ high => high == some 0 || r.onlyEmpty

def hasGroup : Regex → Bool
  | empty | assertion _ | one _ => false
  | seq r s | alt r s => r.hasGroup || s.hasGroup
  | group _ => true
  | repeated r _ _ => r.hasGroup

def set? : Regex → Option ByteSet
  | one set => some set
  | _ => none

def byte? (r : Regex) : Option Byte := r.set?.bind ByteSet.byte?

/-- The parts of a row; the empty expression is a row of none. -/
def parts : Regex → List Regex
  | empty => []
  | seq r s => r.parts ++ s.parts
  | r => [r]

def row : List Regex → Regex
  | [] => empty
  | [r] => r
  | r :: rs => seq r (row rs)

def sequence (rs : List Regex) : Regex := row (rs.flatMap parts)

/-- One of several expressions in a row of choices; a choice from none matches nothing. -/
def oneOf : List Regex → Regex
  | [] => one ByteSet.empty
  | [r] => r
  | r :: rs => alt r (oneOf rs)

/-- One of several expressions; sets are united. -/
def alternation (rs : List Regex) : Regex :=
  match rs.mapM set? with
  | some sets => one (ByteSet.unions sets)
  | none => oneOf rs

/-- The units of a row: its single bytes as long as they follow each other, and each other part. -/
def units (r : Regex) : List (List Regex) :=
  r.parts.splitBy fun x y => x.byte?.isSome && y.byte?.isSome

/-- Units that two rows begin with alike. Groups are told apart wherever they stand. -/
def commonUnits : List (List Regex) → List (List Regex) → List (List Regex)
  | x :: xs, y :: ys => if x = y ∧ x.all (!·.hasGroup) then x :: commonUnits xs ys else []
  | _, _ => []

/-- One of several expressions. When each is a row of at least two units, what all of them begin with
stands before the choice. -/
def choice (rs : List Regex) : Regex :=
  match rs.map units with
  | [] | [_] => alternation rs
  | first :: others =>
    let common := others.foldl commonUnits first
    if common.isEmpty ∨ (first :: others).any (·.length < 2) then alternation rs
    else
      let rest := (first :: others).map fun us => row (us.drop common.length).flatten
      sequence (common.flatten ++ [alternation rest])

/-- Copies of an expression. A second copy of what matches no byte adds nothing. -/
def copies (low : Nat) (high : Option Nat) (r : Regex) : Regex :=
  let bounds := if r.onlyEmpty then (min low 1, some (min (high.getD 1) 1)) else (low, high)
  if bounds.2 = some 0 then empty
  else if bounds = (1, some 1) then r
  else repeated r bounds.1 bounds.2

end AwkCore.Regex
