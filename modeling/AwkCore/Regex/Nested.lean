import AwkCore.Bytes

/-!
# Depth of nesting

What is read from a pattern is kept with its depth. To put something inside brackets or parentheses
makes it a level deeper, and so does repeating it. Several things side by side are a level deeper
than the deepest of them, whereas one alone is no deeper than it is.
-/
namespace AwkCore

structure Nested (α : Type) where
  value : α
  depth : Nat
  deriving DecidableEq, Repr

namespace Nested

variable {α β : Type}

def flat (a : α) : Nested α := ⟨a, 0⟩

def map (f : α → β) (x : Nested α) : Nested β := ⟨f x.value, x.depth⟩

def inside (f : α → β) (x : Nested α) : Nested β := ⟨f x.value, x.depth + 1⟩

def join (f : α → α → β) (x y : Nested α) : Nested β :=
  ⟨f x.value y.value, max x.depth y.depth + 1⟩

def depthOf : List (Nested α) → Nat
  | [] => 0
  | [x] => x.depth
  | xs => xs.foldl (fun d x => max d x.depth) 0 + 1

def gather (f : List α → β) (xs : List (Nested α)) : Nested β := ⟨f (xs.map value), depthOf xs⟩

/-- The deepest that a pattern may be nested. -/
def depthLimit : Nat := 250

def withinLimit (x : Nested α) : Bool := x.depth ≤ depthLimit

end Nested

end AwkCore
