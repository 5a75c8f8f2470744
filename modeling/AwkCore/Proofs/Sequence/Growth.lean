import AwkCore.Sequence
import Mathlib.Algebra.Group.Nat.Defs
import Mathlib.Order.Bounds.Basic

/-!
# Growth of sequences

Under any run of actions a sequence holds what a plain list holds under the same actions. Its room
grows only where an element comes to a full sequence, and doubles there. So the room is the one that
the sequence started with, doubled as often as the greatest length calls for that the sequence has
ever had, however often it has been emptied in between.
-/
namespace AwkCore.Sequence

/-- What can be done with a sequence. An element is changed where it stands, or replaced by its index,
which must be inside of the sequence. -/
inductive Action (α : Type)
  | append (a : α)
  | pop
  | truncate (n : ℕ)
  | clear
  | drain
  | change (i : ℕ) (f : α → α)
  | replace (i : ℕ) (a : α)

/-- What an action answers. To change an element answers the one that was there. -/
inductive Answer (α : Type)
  | done
  | place (i : ℕ)
  | element (a : Option α)
  | elements (as : List α)
  | outOfRange

/-- The ways in which sequences come into being. -/
inductive Origin (α : Type)
  | withCapacity (n : ℕ)
  | new
  | ofList (as : List α)
  | copy (s : Sequence α)

variable {α : Type}

namespace Action

/-- An action on a plain list. -/
def onList (l : List α) : Action α → List α × Answer α
  | append a => (l ++ [a], .place l.length)
  | pop => (l.dropLast, .element l.getLast?)
  | truncate n => (l.take n, .done)
  | clear => ([], .done)
  | drain => ([], .elements l)
  | change i f => (l.modify i f, .element l[i]?)
  | replace i a => if i < l.length then (l.set i a, .done) else (l, .outOfRange)

def allOnList : List α → List (Action α) → List α × List (Answer α)
  | l, [] => (l, [])
  | l, a :: as =>
    let step := a.onList l
    let rest := allOnList step.1 as
    (rest.1, step.2 :: rest.2)

/-- The greatest length of a list at any point of a run. -/
def peak : List α → List (Action α) → ℕ
  | l, [] => l.length
  | l, a :: as => max l.length (peak (a.onList l).1 as)

theorem length_le_peak (l : List α) (actions : List (Action α)) : l.length ≤ peak l actions := by
  cases actions with
  | nil => exact le_rfl
  | cons a actions => exact le_max_left _ _

end Action

def apply (s : Sequence α) : Action α → Sequence α × Answer α
  | .append a => (s.append a, .place s.size)
  | .pop => (s.pop, .element s.last?)
  | .truncate n => (s.truncate n, .done)
  | .clear => (s.clear, .done)
  | .drain => (s.clear, .elements s.toList)
  | .change i f => (s.modify i f, .element (s.get? i))
  | .replace i a => if i < s.size then (s.set i a, .done) else (s, .outOfRange)

def run : Sequence α → List (Action α) → Sequence α × List (Answer α)
  | s, [] => (s, [])
  | s, a :: as =>
    let step := s.apply a
    let rest := run step.1 as
    (rest.1, step.2 :: rest.2)

namespace Origin

def made : Origin α → Sequence α
  | withCapacity n => Sequence.withCapacity n
  | new => Sequence.new
  | ofList as => Sequence.ofList as
  | copy s => s.copy

/-- What a sequence holds at first. -/
def start : Origin α → List α
  | withCapacity _ | new => []
  | ofList as => as
  | copy s => s.toList

/-- The room that a sequence has at first. Elements that it is made from are appended one by one; a
copy has room for its elements only, which may be none. -/
def room : Origin α → ℕ
  | withCapacity n => max n 1
  | new | ofList _ => defaultCapacity
  | copy s => s.toList.length

end Origin

variable {s : Sequence α}

theorem apply_eq_onList (s : Sequence α) (a : Action α) :
    (s.apply a).1.toList = (a.onList s.toList).1 ∧ (s.apply a).2 = (a.onList s.toList).2 := by
  cases a with
  | append a => exact ⟨s.toList_append a, rfl⟩
  | pop => exact ⟨s.toList_pop, congrArg Answer.element s.last?_eq⟩
  | truncate n => exact ⟨s.toList_truncate n, rfl⟩
  | clear => exact ⟨rfl, rfl⟩
  | drain => exact ⟨rfl, rfl⟩
  | change i f => exact ⟨s.toList_modify i f, congrArg Answer.element (s.get?_eq i)⟩
  | replace i a =>
    rw [apply, Action.onList, ← size_eq]
    by_cases inside : i < s.size
    · rw [if_pos inside, if_pos inside]
      exact ⟨s.toList_set i a, rfl⟩
    · rw [if_neg inside, if_neg inside]
      exact ⟨rfl, rfl⟩

theorem run_eq_allOnList (s : Sequence α) (actions : List (Action α)) :
    (s.run actions).1.toList = (Action.allOnList s.toList actions).1 ∧
      (s.run actions).2 = (Action.allOnList s.toList actions).2 := by
  induction actions generalizing s with
  | nil => exact ⟨rfl, rfl⟩
  | cons a actions ih =>
    obtain ⟨list, answer⟩ := s.apply_eq_onList a
    obtain ⟨lists, answers⟩ := ih (s.apply a).1
    rw [list] at lists answers
    exact ⟨lists, congrArg₂ List.cons answer answers⟩

/-- An action appends an element, or it makes the sequence no longer and leaves its capacity as it is. -/
theorem apply_cases (s : Sequence α) (a : Action α) : (∃ x, (s.apply a).1 = s.append x) ∨
    (s.apply a).1.size ≤ s.size ∧ (s.apply a).1.capacity = s.capacity := by
  cases a with
  | append x => exact .inl ⟨x, rfl⟩
  | pop => exact .inr ⟨by simp [apply, size_eq], rfl⟩
  | truncate n => exact .inr ⟨by simp [apply, size_eq], rfl⟩
  | clear => exact .inr ⟨Nat.zero_le _, rfl⟩
  | drain => exact .inr ⟨Nat.zero_le _, rfl⟩
  | change i f => exact .inr ⟨by simp [apply, size_eq], rfl⟩
  | replace i a =>
    rw [apply]
    split
    · exact .inr ⟨by simp [size_eq], rfl⟩
    · exact .inr ⟨le_rfl, rfl⟩

theorem capacity_le_apply (s : Sequence α) (a : Action α) :
    s.capacity ≤ (s.apply a).1.capacity := by
  rcases s.apply_cases a with ⟨x, appended⟩ | ⟨_, capacity⟩
  · rw [appended, capacity_append]
    split <;> omega
  · exact capacity.ge

/-- A capacity is some room, doubled as often as a length calls for. -/
def Doubled (room length capacity : ℕ) : Prop :=
  ∃ k, IsLeast {k | length ≤ room * 2 ^ k} k ∧ capacity = room * 2 ^ k

/-- The room that is doubled: a sequence without any gets room for one element when it first grows. -/
def firstRoom (room most : ℕ) : ℕ := if most = 0 then room else max room 1

namespace Doubled

variable {room length capacity : ℕ}

theorem start (fits : length ≤ room) : Doubled room length room := by
  refine ⟨0, ⟨?_, fun k _ => Nat.zero_le k⟩, (Nat.mul_one room).symm⟩
  simpa using fits

theorem fits (doubled : Doubled room length capacity) : length ≤ capacity := by
  obtain ⟨k, least, rfl⟩ := doubled
  exact least.1

/-- A length that there is room for calls for nothing more. -/
theorem stays {longer : ℕ} (doubled : Doubled room length capacity) (grown : length ≤ longer)
    (fits : longer ≤ capacity) : Doubled room longer capacity := by
  obtain ⟨k, least, rfl⟩ := doubled
  exact ⟨k, ⟨fits, fun j enough => least.2 (grown.trans enough)⟩, rfl⟩

/-- One element more than there is room for calls for doubling once more. -/
theorem again (doubled : Doubled room length capacity) (some : 0 < capacity) :
    Doubled room (capacity + 1) (2 * capacity) := by
  obtain ⟨k, _, rfl⟩ := doubled
  have twice : 2 * (room * 2 ^ k) = room * 2 ^ (k + 1) :=
    (Nat.mul_comm _ _).trans (Nat.mul_assoc room (2 ^ k) 2)
  refine ⟨k + 1, ⟨?_, fun j enough => ?_⟩, twice⟩
  · show room * 2 ^ k + 1 ≤ room * 2 ^ (k + 1)
    omega
  · -- The room doubled `j` times is more than when it is doubled `k` times.
    have more : 2 ^ k < 2 ^ j := Nat.lt_of_mul_lt_mul_left (a := room) enough
    exact (Nat.pow_lt_pow_iff_right Nat.one_lt_two).mp more

end Doubled

/-- A sequence that has started with some room and has never been longer than a given length. -/
structure Grown (room most : ℕ) (s : Sequence α) : Prop where
  size_le : s.size ≤ most
  doubled : Doubled (firstRoom room most) most s.capacity

namespace Grown

variable {room most : ℕ}

theorem first (s : Sequence α) (fits : s.size ≤ s.capacity) : Grown s.capacity s.size s := by
  refine ⟨le_rfl, ?_⟩
  have same : firstRoom s.capacity s.size = s.capacity := by
    unfold firstRoom
    split <;> omega
  rw [same]
  exact .start fits

theorem firstRoom_of_pos (h : Grown room most s) (some : 0 < s.capacity) :
    firstRoom room most = max room 1 := by
  obtain ⟨k, _, capacity⟩ := h.doubled
  have pos : 0 < firstRoom room most := Nat.pos_of_lt_mul_right (capacity ▸ some)
  by_cases never : most = 0
  · rw [firstRoom, if_pos never] at pos ⊢
    omega
  · exact if_neg never

theorem append (h : Grown room most s) (a : α) :
    Grown room (max most (s.append a).size) (s.append a) := by
  have size_le := h.size_le
  have fits := h.doubled.fits
  have size := s.size_append a
  refine ⟨le_max_right _ _, ?_⟩
  rw [size, capacity_append]
  have ever : firstRoom room (max most (s.size + 1)) = max room 1 := if_neg (by omega)
  rw [ever]
  rcases Nat.eq_zero_or_pos s.capacity with none | some
  · -- A sequence without any room has never had an element, so it has had no room from the start.
    have never : most = 0 := by omega
    obtain ⟨k, _, doubled⟩ := h.doubled
    rw [never, firstRoom, if_pos rfl, none] at doubled
    have roomless : room = 0 := by
      rcases Nat.mul_eq_zero.mp doubled.symm with zero | zero
      · exact zero
      · exact absurd zero (Nat.pow_pos Nat.two_pos).ne'
    have empty : s.size = 0 := by omega
    rw [roomless, never, empty, none]
    exact .start le_rfl
  · have doubled := h.doubled
    rw [h.firstRoom_of_pos some] at doubled
    by_cases full : s.size = s.capacity
    · have most_eq : max most (s.size + 1) = s.capacity + 1 := by omega
      have twice : s.capacity + max s.capacity 1 = 2 * s.capacity := by omega
      rw [if_pos full, most_eq, twice]
      exact doubled.again some
    · rw [if_neg full]
      exact doubled.stays (le_max_left _ _) (by omega)

theorem appendAll (h : Grown room s.size s) (as : List α) :
    Grown room (s.appendAll as).size (s.appendAll as) := by
  induction as generalizing s with
  | nil => exact h
  | cons a as ih =>
    have longer : s.size ≤ (s.append a).size := by
      rw [size_append]
      exact Nat.le_succ _
    have grown := h.append a
    rw [max_eq_right longer] at grown
    exact ih grown

/-- What makes a sequence no longer and leaves its capacity as it is has no part in its growth. -/
theorem of_le {t : Sequence α} (h : Grown room most s) (size : t.size ≤ s.size)
    (capacity : t.capacity = s.capacity) : Grown room (max most t.size) t := by
  have same : max most t.size = most := max_eq_left (size.trans h.size_le)
  rw [same]
  exact ⟨size.trans h.size_le, capacity ▸ h.doubled⟩

theorem apply (h : Grown room most s) (a : Action α) :
    Grown room (max most (s.apply a).1.size) (s.apply a).1 := by
  rcases s.apply_cases a with ⟨x, appended⟩ | ⟨size, capacity⟩
  · rw [appended]
    exact h.append x
  · exact h.of_le size capacity

theorem run (h : Grown room most s) (actions : List (Action α)) :
    Grown room (max most (Action.peak s.toList actions)) (s.run actions).1 := by
  induction actions generalizing most s with
  | nil => exact h.of_le le_rfl rfl
  | cons a actions ih =>
    have later := ih (h.apply a)
    have size_le := h.size_le
    obtain ⟨list, _⟩ := s.apply_eq_onList a
    have reached := Action.length_le_peak (s.apply a).1.toList actions
    have same : max (max most (s.apply a).1.size) (Action.peak (s.apply a).1.toList actions) =
        max most (Action.peak s.toList (a :: actions)) := by
      rw [size_eq] at size_le
      rw [Action.peak, ← list, size_eq]
      omega
    rw [same] at later
    exact later

end Grown

theorem Origin.start_eq (o : Origin α) : o.made.toList = o.start := by
  cases o with
  | withCapacity n => rfl
  | new => rfl
  | ofList as => exact (toList_appendAll _ _).trans (List.nil_append as)
  | copy s => rfl

theorem Origin.grown (o : Origin α) : Grown o.room o.start.length o.made := by
  rw [← o.start_eq, ← size_eq]
  cases o with
  | withCapacity n => exact .first (Sequence.withCapacity n) (Nat.zero_le _)
  | new => exact .first Sequence.new (Nat.zero_le _)
  | ofList as => exact (Grown.first Sequence.new (Nat.zero_le _)).appendAll as
  | copy s => exact .first s.copy le_rfl

/-- After any run on a sequence, made in any way, it holds what a plain list holds after the same run, and
it has given the same answers; an addition answers the length before it. Its capacity is its first room,
doubled the least number of times that makes it enough for the greatest length of the run. A copy of an
empty sequence has no room at first, and starts to double at one. No action lowers the capacity. -/
theorem run_made_capacity (o : Origin α) (actions : List (Action α)) :
    let s := (o.made.run actions).1
    let most := Action.peak o.start actions
    let room := if most = 0 then o.room else max o.room 1
    s.toList = (Action.allOnList o.start actions).1 ∧
      (o.made.run actions).2 = (Action.allOnList o.start actions).2 ∧
      (∃ k, IsLeast {k | most ≤ room * 2 ^ k} k ∧ s.capacity = room * 2 ^ k) ∧
      ∀ a, s.capacity ≤ (s.apply a).1.capacity := by
  intro s most room
  obtain ⟨list, answers⟩ := o.made.run_eq_allOnList actions
  rw [o.start_eq] at list answers
  have grown := o.grown.run actions
  rw [o.start_eq, max_eq_right (Action.length_le_peak _ _)] at grown
  exact ⟨list, answers, grown.doubled, s.capacity_le_apply⟩

example : let o : Origin ℕ := .copy new
    o.made.capacity = 0 ∧ (o.made.run [.append 7, .pop, .append 8, .append 9]).1.capacity = 2 := by
  decide

end AwkCore.Sequence
