import AwkCore.Heap.Cells
import Mathlib.Tactic.Common

/-!
# Scalars stay scalars

Assignment and the use as an array look at what a cell holds now. So a cell with a scalar never
comes to hold an array, unless an uninitialized value is assigned to it on the way: this leaves no
trace of the scalar, and the cell may become an array after all.
-/
namespace AwkCore

namespace Value

variable {τ α : Type} {t s : Value τ α}

/-- Whether an array can neither be stored over a value nor made of it. -/
def refusesArray : Value τ α → Bool
  | uninitialized | array _ => false
  | _ => true

theorem refusesArray_of_isScalar (scalar : t.isScalar) (given : t ≠ uninitialized) :
    t.refusesArray := by
  cases t <;> first | rfl | contradiction

theorem not_isArray (refuses : t.refusesArray) : ¬ t.isArray := by
  cases t <;> first | exact Bool.noConfusion | contradiction

theorem given_of_refusesArray (refuses : t.refusesArray) : t ≠ uninitialized := by
  rintro rfl
  cases refuses

theorem checkAssign_array (refuses : t.refusesArray) (a : α) :
    t.checkAssign (array a) = .error .arrayIntoScalar := by
  cases t <;> first | rfl | contradiction

/-- What can be stored over such a value is one again, or uninitialized. -/
theorem refusesArray_of_checkAssign (refuses : t.refusesArray) (ok : t.checkAssign s = .ok ())
    (given : s ≠ uninitialized) : s.refusesArray := by
  cases s with
  | uninitialized => contradiction
  | array a =>
    rw [checkAssign_array refuses] at ok
    cases ok
  | _ => rfl

end Value

namespace Heap

theorem add_uninitialized (h : Heap) (v : Content) :
    (h.add v).2 = .uninitialized ↔ v = .uninitialized := by
  cases v <;> simp [add]

end Heap

namespace Cells

variable {c d : Cells} {i k : ℕ} {a : ArrayRef}

theorem cell_write_of_ne (c : Cells) (h : Heap) (v : Stored) (other : i ≠ k) :
    (c.write h k v).cell i = c.cell i := by
  simp [cell, write, other.symm]

theorem cell_write (c : Cells) (h : Heap) (v : Stored) (inside : i < c.cells.size) :
    (c.write h i v).cell i = v := by
  simp [cell, write, inside]

theorem inside_of_given (given : c.cell i ≠ .uninitialized) : i < c.cells.size := by
  by_contra outside
  rw [cell, Array.getElem?_eq_none (Nat.not_lt.mp outside), Option.getD_none] at given
  exact given rfl

theorem inside_of_refusesArray (refuses : (c.cell i).refusesArray) : i < c.cells.size :=
  inside_of_given (Value.given_of_refusesArray refuses)

/-- The use as an array changes one cell only, and that one from uninitialized to an array. -/
theorem useAsArray_cell (ok : c.useAsArray k = .ok (d, a)) (i : ℕ) :
    d.cell i = c.cell i ∨ i = k ∧ c.cell i = .uninitialized := by
  unfold useAsArray at ok
  split at ok
  case h_1 =>
    cases ok
    exact .inl rfl
  case h_2 nothing =>
    cases ok
    by_cases same : i = k
    · exact .inr ⟨same, same ▸ nothing⟩
    · exact .inl (cell_write_of_ne c _ _ same)
  case h_3 => cases ok

theorem useAsArray_refused (refuses : (c.cell i).refusesArray) :
    c.useAsArray i = .error .scalarAsArray := by
  unfold useAsArray
  cases held : c.cell i <;> rw [held] at refuses <;> first | rfl | contradiction

theorem withArray_cell {f : Cells → ArrayRef → Cells × Outcome}
    (keeps : ∀ d a, (f d a).1.cell i = d.cell i) (given : c.cell i ≠ .uninitialized) (k : ℕ) :
    (c.withArray k f).1.cell i = c.cell i := by
  unfold withArray
  cases used : c.useAsArray k with
  | error e => rfl
  | ok result =>
    obtain ⟨d, a⟩ := result
    rcases useAsArray_cell used i with same | ⟨_, nothing⟩
    · exact (keeps d a).trans same
    · exact absurd nothing given

theorem assignElement_cell (v : Stored) (key : Bytes) (c : Cells) (a : ArrayRef) (i : ℕ) :
    (assignElement v key c a).1.cell i = c.cell i := by
  unfold assignElement
  simp only
  split <;> rfl

theorem useElement_cell (key : Bytes) (c : Cells) (a : ArrayRef) (i : ℕ) :
    (useElement key c a).1.cell i = c.cell i := by
  unfold useElement
  simp only
  split <;> rfl

theorem getElement_cell (j : ℕ) (key : Bytes) (c : Cells) (a : ArrayRef) (other : i ≠ j) :
    (getElement j key c a).1.cell i = c.cell i := by
  unfold getElement
  split
  · exact cell_write_of_ne c _ _ other
  · rfl

/-- What passes the check leaves a scalar in a cell that holds one, if it is not uninitialized. -/
theorem write_refusesArray {h : Heap} {v : Stored} (refuses : (c.cell i).refusesArray)
    (checked : (c.cell k).checkAssign v = .ok ()) (given : k = i → v ≠ .uninitialized) :
    ((c.write h k v).cell i).refusesArray := by
  by_cases same : i = k
  · subst same
    rw [cell_write c h v (inside_of_refusesArray refuses)]
    exact Value.refusesArray_of_checkAssign refuses checked (given rfl)
  · rw [cell_write_of_ne c h v same]
    exact refuses

/-- The cell that an action overwrites whatever it holds. -/
def Action.overwritten? : Action → Option ℕ
  | .set i _ | .copy i _ | .toText i _ | .toNumber i _ => some i
  | .get _ _ j => some j
  | _ => none

/-- The cell that an action gives another value, whether it overwrites the cell or assigns to it. -/
def Action.assigned? : Action → Option ℕ
  | .assign i _ | .assignContent i _ => some i
  | action => action.overwritten?

/-- A cell that holds something keeps it through every action that does not give it another value, except
that bytes may be appended to its string. -/
theorem apply_cell {action : Action} (given : c.cell i ≠ .uninitialized)
    (spared : action.assigned? ≠ some i) :
    (c.apply action).1.cell i = c.cell i ∨
      ∃ r s, c.cell i = .string r ∧ (c.apply action).1.cell i = .string s := by
  have elsewhere {k : ℕ} (h : Heap) (v : Stored) (other : some k ≠ some i) :
      (c.write h k v).cell i = c.cell i :=
    cell_write_of_ne c h v fun same => other (congrArg some same.symm)
  cases action with
  | set k v => exact .inl (elsewhere _ _ spared)
  | copy k j => exact .inl (elsewhere _ _ spared)
  | toText k j => exact .inl (elsewhere _ _ spared)
  | toNumber k j => exact .inl (elsewhere _ _ spared)
  | assign k j =>
    rw [apply]
    cases (c.cell k).checkAssign (c.cell j) with
    | error e => exact .inl rfl
    | ok => exact .inl (elsewhere _ _ spared)
  | assignContent k v =>
    simp only [apply]
    cases (c.cell k).checkAssign (c.heap.add v).2 with
    | error e => exact .inl rfl
    | ok => exact .inl (elsewhere _ _ spared)
  | useAsArray k => exact .inl (withArray_cell (fun _ _ => rfl) given k)
  | put k key j => exact .inl (withArray_cell (fun _ _ => rfl) given k)
  | assignElement k key j =>
    exact .inl (withArray_cell (fun d a => assignElement_cell (c.cell j) key d a i) given k)
  | useElement k key => exact .inl (withArray_cell (fun d a => useElement_cell key d a i) given k)
  | get k key j =>
    have other : i ≠ j := fun same => spared (congrArg some same.symm)
    exact .inl (withArray_cell (fun d a => getElement_cell j key d a other) given k)
  | delete k key => exact .inl (withArray_cell (fun _ _ => rfl) given k)
  | push k bytes =>
    rw [apply]
    split
    case h_1 r held =>
      by_cases same : i = k
      · subst same
        exact .inr ⟨r, _, held, cell_write c c.heap (.string _) (inside_of_given given)⟩
      · exact .inl (cell_write_of_ne c c.heap _ same)
    case h_2 => exact .inl rfl

/-- An action that assigns an uninitialized value to a cell. -/
def Empties (c : Cells) (i : ℕ) : Action → Prop
  | .assign k j => k = i ∧ c.cell j = .uninitialized
  | .assignContent k v => k = i ∧ v = .uninitialized
  | _ => False

/-- A run that reaches a cell by assignment and by use as an array only, and never assigns an
uninitialized value to it. -/
def Fills (i : ℕ) : Cells → List Action → Prop
  | _, [] => True
  | c, action :: actions =>
    action.overwritten? ≠ some i ∧ ¬ c.Empties i action ∧ Fills i (c.apply action).1 actions

theorem apply_refusesArray {action : Action} (refuses : (c.cell i).refusesArray)
    (spared : action.overwritten? ≠ some i) (filled : ¬ c.Empties i action) :
    ((c.apply action).1.cell i).refusesArray := by
  by_cases assigned : action.assigned? = some i
  · cases action with
    | assign k j =>
      rw [apply]
      cases checked : (c.cell k).checkAssign (c.cell j) with
      | error e => exact refuses
      | ok =>
        exact write_refusesArray refuses checked fun same nothing => filled ⟨same, nothing⟩
    | assignContent k v =>
      simp only [apply]
      cases checked : (c.cell k).checkAssign (c.heap.add v).2 with
      | error e => exact refuses
      | ok =>
        refine write_refusesArray refuses checked fun same nothing => filled ⟨same, ?_⟩
        exact (c.heap.add_uninitialized v).mp nothing
    | _ => exact absurd assigned spared
  · rcases apply_cell (Value.given_of_refusesArray refuses) assigned with same | ⟨_, _, _, text⟩
    · rw [same]
      exact refuses
    · rw [text]
      rfl

theorem run_refusesArray {actions : List Action} (refuses : (c.cell i).refusesArray)
    (fills : Fills i c actions) : ((c.run actions).cell i).refusesArray := by
  induction actions generalizing c with
  | nil => exact refuses
  | cons action actions ih =>
    obtain ⟨spared, filled, later⟩ := fills
    exact ih (apply_refusesArray refuses spared filled) later

/-- The use of a scalar as an array, and the assignment of an array to it, are refused. -/
theorem apply_refused (refuses : (c.cell i).refusesArray) :
    c.apply (.useAsArray i) = (c, .refused .scalarAsArray) ∧
      (∀ j, (c.cell j).isArray → c.apply (.assign i j) = (c, .refused .arrayIntoScalar)) ∧
      (c.apply (.assignContent i (.array ()))).1.cells = c.cells ∧
      (c.apply (.assignContent i (.array ()))).2 = .refused .arrayIntoScalar := by
  have checked (a : ArrayRef) : (c.cell i).checkAssign (.array a) = .error .arrayIntoScalar :=
    Value.checkAssign_array refuses a
  refine ⟨?_, fun j array => ?_, ?_⟩
  · rw [apply, withArray, useAsArray_refused refuses]
  · cases held : c.cell j with
    | array a => simp only [apply, held, checked]
    | _ =>
      rw [held] at array
      contradiction
  · simp only [apply, Heap.add, checked]
    exact ⟨trivial, trivial⟩

/-- An uninitialized value can be assigned to such a cell, which holds nothing then. -/
theorem apply_emptied (refuses : (c.cell i).refusesArray) :
    (c.apply (.assignContent i .uninitialized)).2 = .done ∧
      (c.apply (.assignContent i .uninitialized)).1.cell i = .uninitialized := by
  have checked : (c.cell i).checkAssign (.uninitialized : Stored) = .ok () := by
    cases held : c.cell i <;> rw [held] at refuses <;> first | rfl | contradiction
  simp only [apply, Heap.add, checked]
  exact ⟨trivial, cell_write c c.heap _ (inside_of_refusesArray refuses)⟩

theorem size_apply_assignContent (c : Cells) (i : ℕ) (v : Content) :
    (c.apply (.assignContent i v)).1.cells.size = c.cells.size := by
  simp only [apply]
  cases (c.cell i).checkAssign (c.heap.add v).2 with
  | error e => rfl
  | ok => exact Array.size_setIfInBounds

/-- What can hold something and holds nothing becomes an array when it is used as one. -/
theorem useAsArray_emptied (inside : i < c.cells.size) (nothing : c.cell i = .uninitialized) :
    (c.apply (.useAsArray i)).2 = .done ∧ ((c.apply (.useAsArray i)).1.cell i).isArray := by
  have used : c.apply (.useAsArray i) =
      (c.write c.heap.addArray.1 i (.array c.heap.addArray.2), .done) := by
    simp only [apply, withArray, useAsArray, nothing]
  rw [used, cell_write c _ _ inside]
  exact ⟨rfl, rfl⟩

/-- A cell that was given a scalar holds no array, and refuses any, as long as it is only assigned
to and used as an array and never given an uninitialized value. Such a value makes it forget: the
assignment is done and leaves nothing in the cell, which may become an array then. -/
theorem scalar_stays (c : Cells) (i : ℕ) (actions : List Action) (scalar : (c.cell i).isScalar)
    (given : c.cell i ≠ .uninitialized) (fills : Fills i c actions) :
    let d := c.run actions
    let emptied := d.apply (.assignContent i .uninitialized)
    let used := emptied.1.apply (.useAsArray i)
    ¬ (d.cell i).isArray ∧ d.apply (.useAsArray i) = (d, .refused .scalarAsArray) ∧
      (∀ j, (d.cell j).isArray → d.apply (.assign i j) = (d, .refused .arrayIntoScalar)) ∧
      (d.apply (.assignContent i (.array ()))).1.cells = d.cells ∧
      (d.apply (.assignContent i (.array ()))).2 = .refused .arrayIntoScalar ∧
      (emptied.2 = .done ∧ emptied.1.cell i = .uninitialized) ∧
      used.2 = .done ∧ (used.1.cell i).isArray := by
  intro d emptied used
  have refuses := run_refusesArray (Value.refusesArray_of_isScalar scalar given) fills
  obtain ⟨as_array, assigned, kept, refused⟩ := apply_refused refuses
  have nothing := apply_emptied refuses
  have inside : i < emptied.1.cells.size := by
    rw [size_apply_assignContent]
    exact inside_of_refusesArray refuses
  exact ⟨Value.not_isArray refuses, as_array, assigned, kept, refused, nothing,
    useAsArray_emptied inside nothing.2⟩

/-- The string in the first of two cells, and an array in the second. -/
theorem scalar_stays_string :
    let c := (Cells.empty 2).run [.assignContent 0 (.string (ascii "a")), .useAsArray 1]
    let actions : List Action :=
      [.assign 0 1, .useAsArray 0, .assignContent 0 (.number Binary64.zero)]
    (c.cell 0).isScalar ∧ c.cell 0 ≠ .uninitialized ∧ Fills 0 c actions ∧
      ((c.run actions).cell 1).isArray ∧
      (c.run actions).apply (.assign 0 1) = (c.run actions, .refused .arrayIntoScalar) := by
  intro c actions
  have scalar : (c.cell 0).isScalar := rfl
  have given : c.cell 0 ≠ .uninitialized := by
    intro h
    cases h
  have fills : Fills 0 c actions := by
    refine ⟨nofun, ?_, nofun, id, nofun, ?_, trivial⟩
    · rintro ⟨_, nothing⟩
      cases nothing
    · rintro ⟨_, nothing⟩
      cases nothing
  have array : ((c.run actions).cell 1).isArray := rfl
  obtain ⟨_, _, assigned, _⟩ := scalar_stays c 0 actions scalar given fills
  exact ⟨scalar, given, fills, array, assigned 1 array⟩

/-- A cell that was given a number comes to hold an array. -/
theorem scalar_forgotten :
    let given := (Cells.empty 1).apply (.assignContent 0 (.number Binary64.zero))
    let emptied := given.1.apply (.assignContent 0 .uninitialized)
    let used := emptied.1.apply (.useAsArray 0)
    given.2 = .done ∧ (given.1.cell 0).isNumber ∧ emptied.2 = .done ∧ used.2 = .done ∧
      (used.1.cell 0).isArray :=
  ⟨rfl, rfl, rfl, rfl, rfl⟩

end Cells

end AwkCore
