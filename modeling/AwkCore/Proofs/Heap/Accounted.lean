import AwkCore.Proofs.Heap.Deeds

/-!
# Accounts of cells

Whatever is done with cells, every handle on a string or an array is accounted for: it is that of a cell
or of a table. A value that goes to a cell which is not there keeps its handle, and is counted as lost.
-/
namespace AwkCore

namespace Pool

variable {α : Type} (p : Pool α)

theorem set_set (i : ℕ) (a b : α) : (p.set i a).set i b = p.set i b := by
  simp only [set]
  congr 1
  apply Array.ext_getElem?
  intro j
  simp only [Array.getElem?_modify]
  split <;> simp [Option.map_map, Function.comp_def]

theorem retain_set (i j : ℕ) (a : α) : (p.set i a).retain j = (p.retain j).set i a := by
  simp only [retain, set]
  congr 1
  apply Array.ext_getElem?
  intro k
  simp only [Array.getElem?_modify]
  split <;> split <;> simp [Option.map_map, Function.comp_def]

end Pool

/-- The value in the slot of a key that was found or inserted. -/
def Table.Placement.value (p : Placement TextRef Stored) : Stored :=
  (p.table.valueAt? p.slot).getD default

namespace Heap

open Table

variable {h : Heap} {t t' : Elements} {out : List Stored} {v : Stored} {a : ArrayRef}
  {book : ℕ → Ledger TextRef Stored}

theorem setTable_setTable (h : Heap) (a : ArrayRef) (t t' : Elements) :
    (h.setTable a t).setTable a t' = h.setTable a t' :=
  congrArg (Heap.mk h.texts) (h.arrays.set_set a.place t t')

theorem retain_setTable (h : Heap) (a : ArrayRef) (t : Elements) (v : Stored) :
    (h.setTable a t).retain v = (h.retain v).setTable a t := by
  cases v with
  | array b => exact congrArg (Heap.mk h.texts) (h.arrays.retain_set a.place b.place t)
  | _ => rfl

theorem there_of_setTable (there : (h.setTable a t).arrays.get? a.place = some t') :
    ∃ u, h.arrays.get? a.place = some u := by
  have changed : (h.arrays.set a.place t).get? a.place = some t' := there
  rw [Pool.get?_set, if_pos rfl] at changed
  obtain ⟨u, there, -⟩ := Option.map_eq_some_iff.mp changed
  exact ⟨u, there⟩

theorem elements_setTable (there : (h.setTable a t).arrays.get? a.place = some t') :
    (h.setTable a t).elements a = t := by
  obtain ⟨u, there⟩ := there_of_setTable there
  rw [Heap.elements, setTable, Pool.get?_set, if_pos rfl, there]
  rfl

/-- The text of a value is a new string if the value has none. -/
theorem Tallies.textOf (tallies : h.Tallies out book) (alive : h.Alive v) :
    (h.textOf v).1.Tallies (.string (h.textOf v).2 :: out) book := by
  cases v with
  | string r => exact tallies.retain alive
  | numericString r n =>
    have text : h.Alive (.string r) := ⟨alive.texts, nofun⟩
    exact tallies.retain text
  | _ => exact tallies.addText _

/-- Insert a value into the table of an array, by a string that is let go of afterwards. -/
def put (h : Heap) (a : ArrayRef) (key : Bytes) (v : Stored) : Heap × Elements :=
  let (h, k) := (h.retain v).addText key
  let (h, t) := h.insert (h.elements a) k v
  (h.releaseText k, t)

theorem Tallies.put (tallies : h.Tallies out book) (mem : .array a ∈ out) (alive : h.Alive v)
    (key : Bytes) :
    ∃ book', ((h.put a key v).1.setTable a (h.put a key v).2).Tallies out book' := by
  have keyed := ((tallies.retain alive).addText key).perm (.swap _ _ _)
  have mem' := List.mem_cons_of_mem (.string ((h.retain v).addText key).2) mem
  have inserted := keyed.insert (keyed.there (List.mem_cons_of_mem _ mem')) mem' List.mem_cons_self
  exact ⟨_, inserted.releaseText⟩

/-- A value that is out moves to a slot, in a table that the heap is about to get. -/
theorem Tallies.moveAt {n : ℕ} {s : Slot TextRef Stored} {view : TextRef → Bytes} {key : Bytes}
    (tallies : (h.setTable a t).Tallies (v :: out) book) (mem : .array a ∈ out)
    (here : Live view t n s key) :
    ∃ book', ((h.release s.value).setTable a (t.setValue n v)).Tallies out book' := by
  have there := tallies.there (List.mem_cons_of_mem v mem)
  obtain ⟨sound, spent, -⟩ := tallies.lists there
  rw [elements_setTable there] at there sound spent
  have lists : (h.setTable a t).Lists (t.setValue n v) (t.setValue n v).ledger := by
    refine ⟨sound.setValue n v, ?_, rfl⟩
    rw [setValue_eq_writeAt here]
    exact spent.writeAt here _
  have changed : ((h.setTable a t).setTable a (t.setValue n v)).Tallies ([s.value] ++ out) _ :=
    tallies.setTable [v] there lists (trades_setValue here.slot_at v)
  rw [setTable_setTable] at changed
  have owned := changed.owned
  rw [List.flatMap_append] at owned
  have released := changed.releaseAll [s.value]
  rw [owned.releaseAll_setTable (List.mem_flatMap.mpr ⟨_, mem, List.mem_cons_self⟩)] at released
  exact ⟨_, released⟩

/-- A value takes the place of the one in a slot, in a table that the heap is about to get. -/
theorem Tallies.storeAt {n : ℕ} {s : Slot TextRef Stored} {view : TextRef → Bytes} {key : Bytes}
    (tallies : (h.setTable a t).Tallies out book) (mem : .array a ∈ out)
    (alive : (h.setTable a t).Alive v) (here : Live view t n s key) :
    ∃ book', (((h.retain v).release s.value).setTable a (t.setValue n v)).Tallies out book' := by
  have retained := tallies.retain alive
  rw [retain_setTable] at retained
  exact retained.moveAt mem here

end Heap

namespace Cells

open Heap Table

variable {c d : Cells} {h : Heap} {i j : ℕ} {v : Stored} {a : ArrayRef} {lost : List Stored}
  {book : Book}

/-- A value of a cell, or none. -/
def Holds (c : Cells) (v : Stored) : Prop := v = .uninitialized ∨ v ∈ c.cells.toList

theorem Holds.alive (holds : c.Holds v) (tallies : h.Tallies (c.cells.toList ++ lost) book) :
    h.Alive v := by
  rcases holds with rfl | mem
  · exact ⟨nofun, nofun⟩
  · exact tallies.alive (List.mem_append_left _ mem)

section Table

variable (tallies : c.heap.Tallies (c.cells.toList ++ lost) book)
  (mem : .array a ∈ c.cells.toList ++ lost)

include tallies mem

end Table

end Cells

end AwkCore
