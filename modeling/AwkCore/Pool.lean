/-!
# Contents held in common

A pool keeps contents that several handles share. It counts the handles on each and gives up a
content when its last handle goes. A place in the pool is never used again.
-/
namespace AwkCore

/-- A content and the number of handles on it. -/
structure Shared (α : Type) where
  content : α
  holders : Nat
  deriving Repr

structure Pool (α : Type) where
  places : Array (Option (Shared α))

namespace Pool

variable {α : Type}

def empty : Pool α := ⟨#[]⟩

/-- The place that the next content gets. -/
def fresh (p : Pool α) : Nat := p.places.size

/-- Keep a content for one handle, at the fresh place. -/
def add (p : Pool α) (a : α) : Pool α := ⟨p.places.push (some ⟨a, 1⟩)⟩

def shared? (p : Pool α) (i : Nat) : Option (Shared α) := p.places[i]?.join

def get? (p : Pool α) (i : Nat) : Option α := (p.shared? i).map Shared.content

def holders (p : Pool α) (i : Nat) : Nat := (p.shared? i).elim 0 Shared.holders

def set (p : Pool α) (i : Nat) (a : α) : Pool α :=
  ⟨p.places.modify i fun s => s.map fun s => { s with content := a }⟩

def retain (p : Pool α) (i : Nat) : Pool α :=
  ⟨p.places.modify i fun s => s.map fun s => { s with holders := s.holders + 1 }⟩

/-- One handle less on a place that keeps its content. -/
def leave (p : Pool α) (i : Nat) : Pool α :=
  ⟨p.places.modify i fun s => s.map fun s => { s with holders := s.holders - 1 }⟩

def erase (p : Pool α) (i : Nat) : Pool α := ⟨p.places.setIfInBounds i none⟩

/-- Let go of a handle; the content comes out if it was the last. -/
def release (p : Pool α) (i : Nat) : Pool α × Option α :=
  match p.shared? i with
  | none => (p, none)
  | some s => if s.holders ≤ 1 then (p.erase i, some s.content) else (p.leave i, none)

theorem shared?_add (p : Pool α) (a : α) (i : Nat) :
    (p.add a).shared? i = if i = p.fresh then some ⟨a, 1⟩ else p.shared? i := by
  by_cases h : i = p.places.size <;> simp [shared?, add, fresh, Array.getElem?_push, h]

theorem shared?_fresh (p : Pool α) : p.shared? p.fresh = none := by
  simp [shared?, fresh]

theorem shared?_modify (p : Pool α) (i j : Nat) (f : Shared α → Shared α) :
    (Pool.mk (p.places.modify i fun s => s.map f)).shared? j =
      if i = j then (p.shared? j).map f else p.shared? j := by
  simp only [shared?, Array.getElem?_modify]
  split
  · cases p.places[j]? <;> rfl
  · rfl

theorem shared?_erase (p : Pool α) (i j : Nat) :
    (p.erase i).shared? j = if i = j then none else p.shared? j := by
  simp only [shared?, erase, Array.getElem?_setIfInBounds]
  split
  · split <;> rfl
  · rfl

/-- Letting go of one handle of several, or of the last. -/
theorem shared?_release (p : Pool α) (i j : Nat) :
    (p.release i).1.shared? j =
      if i = j then
        (p.shared? j).bind fun s => if s.holders ≤ 1 then none else some ⟨s.content, s.holders - 1⟩
      else p.shared? j := by
  unfold release
  split
  · rename_i none
    split
    · rename_i eq
      rw [← eq, none]
      rfl
    · rfl
  · rename_i s hs
    by_cases eq : i = j
    · subst eq
      by_cases last : s.holders ≤ 1
      · simp [last, shared?_erase, hs]
      · simp [last, leave, shared?_modify, hs]
    · by_cases last : s.holders ≤ 1
      · simp [last, shared?_erase, eq]
      · simp [last, leave, shared?_modify, eq]

def sumOf (f : α → Nat) : List (Option (Shared α)) → Nat
  | [] => 0
  | none :: ps => sumOf f ps
  | some s :: ps => f s.content + sumOf f ps

def total (f : α → Nat) (p : Pool α) : Nat := sumOf f p.places.toList

theorem sumOf_set_none (f : α → Nat) (ps : List (Option (Shared α))) (i : Nat) (s : Shared α)
    (h : ps[i]? = some (some s)) : sumOf f (ps.set i none) + f s.content = sumOf f ps := by
  induction ps generalizing i with
  | nil => simp at h
  | cons p ps ih =>
    cases i with
    | zero =>
      simp only [List.getElem?_cons_zero, Option.some.injEq] at h
      subst h
      simp only [List.set_cons_zero, sumOf]
      omega
    | succ i =>
      have := ih i (by simpa using h)
      cases p <;> simp only [List.set_cons_succ, sumOf] <;> omega

theorem sumOf_modify (f : α → Nat) (ps : List (Option (Shared α))) (i : Nat)
    (g : Option (Shared α) → Option (Shared α))
    (h : ∀ p, sumOf f [g p] = sumOf f [p]) : sumOf f (ps.modify i g) = sumOf f ps := by
  induction ps generalizing i with
  | nil => simp
  | cons p ps ih =>
    have split : ∀ (q : Option (Shared α)) (qs : List (Option (Shared α))),
        sumOf f (q :: qs) = sumOf f [q] + sumOf f qs := by
      intro q qs
      cases q <;> simp [sumOf]
    cases i with
    | zero => rw [List.modify_zero_cons, split, h, ← split]
    | succ i => rw [List.modify_succ_cons, split, ih, ← split]

theorem shared?_eq_some {p : Pool α} {i : Nat} {s : Shared α} (h : p.shared? i = some s) :
    p.places.toList[i]? = some (some s) := by
  simpa [shared?, Option.join_eq_some_iff] using h

/-- Letting go of a handle takes what comes out, and nothing else, off the total. -/
theorem total_release (f : α → Nat) (p : Pool α) (i : Nat) :
    total f (p.release i).1 + (p.release i).2.elim 0 f = total f p := by
  unfold release
  split
  · simp
  · rename_i s hs
    split
    · have := sumOf_set_none f _ _ _ (shared?_eq_some hs)
      simpa [total, erase] using this
    · have := sumOf_modify f p.places.toList i
        (fun s => s.map fun s => { s with holders := s.holders - 1 })
        (by intro p; cases p <;> rfl)
      simpa [total, leave] using this

end Pool

end AwkCore
