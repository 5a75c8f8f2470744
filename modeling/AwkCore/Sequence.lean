/-!
# Growable sequences

A sequence appends at its end and answers the place of each element. Its capacity doubles when it is
full and never shrinks.
-/
namespace AwkCore

structure Sequence (α : Type) where
  items : Array α
  capacity : Nat
  deriving DecidableEq, Repr

namespace Sequence

variable {α : Type}

def withCapacity (n : Nat) : Sequence α := ⟨#[], max n 1⟩

def defaultCapacity : Nat := 16

def new : Sequence α := withCapacity defaultCapacity

def size (s : Sequence α) : Nat := s.items.size
def isEmpty (s : Sequence α) : Bool := s.items.isEmpty
def toList (s : Sequence α) : List α := s.items.toList
def get? (s : Sequence α) (i : Nat) : Option α := s.items[i]?
def last? (s : Sequence α) : Option α := s.items.back?

def grown (s : Sequence α) : Nat :=
  if s.items.size = s.capacity then s.capacity + max s.capacity 1 else s.capacity

/-- The new element is at place `size`. -/
def append (s : Sequence α) (a : α) : Sequence α :=
  let capacity := s.grown
  ⟨s.items.push a, capacity⟩

def set (s : Sequence α) (i : Nat) (a : α) : Sequence α :=
  { s with items := s.items.setIfInBounds i a }

def modify (s : Sequence α) (i : Nat) (f : α → α) : Sequence α :=
  { s with items := s.items.modify i f }

def pop (s : Sequence α) : Sequence α := { s with items := s.items.pop }
def truncate (s : Sequence α) (n : Nat) : Sequence α := { s with items := s.items.take n }
def clear (s : Sequence α) : Sequence α := { s with items := #[] }
def reverse (s : Sequence α) : Sequence α := { s with items := s.items.reverse }
def map (f : α → α) (s : Sequence α) : Sequence α := { s with items := s.items.map f }

/-- A copy has room for its elements only. -/
def copy (s : Sequence α) : Sequence α := ⟨s.items, s.items.size⟩

def appendAll (s : Sequence α) (as : List α) : Sequence α := as.foldl append s

def ofList (as : List α) : Sequence α := new.appendAll as

theorem get?_eq (s : Sequence α) (i : Nat) : s.get? i = s.toList[i]? := by
  simp [get?, toList]

theorem size_eq (s : Sequence α) : s.size = s.toList.length := rfl

@[simp] theorem toList_withCapacity (n : Nat) : (withCapacity n : Sequence α).toList = [] := rfl

@[simp] theorem toList_new : (new : Sequence α).toList = [] := rfl

@[simp] theorem toList_append (s : Sequence α) (a : α) : (s.append a).toList = s.toList ++ [a] := by
  simp [append, toList]

theorem size_append (s : Sequence α) (a : α) : (s.append a).size = s.size + 1 := Array.size_push a

theorem capacity_append (s : Sequence α) (a : α) : (s.append a).capacity =
    if s.size = s.capacity then s.capacity + max s.capacity 1 else s.capacity := rfl

@[simp] theorem toList_appendAll (s : Sequence α) (as : List α) :
    (s.appendAll as).toList = s.toList ++ as := by
  induction as generalizing s with
  | nil => exact (List.append_nil _).symm
  | cons a as ih =>
    exact (ih (s.append a)).trans (by rw [toList_append, List.append_assoc, List.singleton_append])

@[simp] theorem toList_modify (s : Sequence α) (i : Nat) (f : α → α) :
    (s.modify i f).toList = s.toList.modify i f := by
  simp [modify, toList]

@[simp] theorem toList_clear (s : Sequence α) : s.clear.toList = [] := rfl

@[simp] theorem toList_set (s : Sequence α) (i : Nat) (a : α) :
    (s.set i a).toList = s.toList.set i a := by
  simp [set, toList]

@[simp] theorem toList_pop (s : Sequence α) : s.pop.toList = s.toList.dropLast := by
  simp [pop, toList]

@[simp] theorem toList_truncate (s : Sequence α) (n : Nat) :
    (s.truncate n).toList = s.toList.take n := by
  simp [truncate, toList]

theorem last?_eq (s : Sequence α) : s.last? = s.toList.getLast? := by
  simp [last?, toList]

end Sequence

end AwkCore
