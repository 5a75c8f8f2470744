import AwkCore.Proofs.Heap.Cells
import AwkCore.Proofs.Heap.Tallies

/-!
# Every handle is accounted for

A book is kept of what is done with the tables of arrays: a ledger for each, in which nothing is written
of what is done with cells. After any run of deeds, the handles on a string or an array are those of the
cells and those of the lines in the book.
-/
namespace AwkCore

namespace Pool

variable {α : Type} (p : Pool α)

/-- The places with a content. -/
def inUse : List ℕ := (List.range p.fresh).filter fun i => (p.get? i).isSome

theorem contents_eq : p.contents = (List.range p.fresh).filterMap p.get? := by
  have places : p.places.toList = (List.range p.fresh).map p.shared? := by
    refine List.ext_getElem (by simp [fresh]) fun i lt _ => ?_
    have inside : i < p.places.size := lt
    simp [shared?, inside]
  rw [contents, places, List.filterMap_map]
  rfl

/-- A sum over all contents, each known by its place. -/
theorem sum_contents {f : α → ℕ} {g : ℕ → ℕ} (same : ∀ {i a}, p.get? i = some a → f a = g i) :
    (p.contents.map f).sum = (p.inUse.map g).sum := by
  rw [contents_eq, inUse]
  induction List.range p.fresh with
  | nil => rfl
  | cons i places ih =>
    cases there : p.get? i with
    | none => simpa [List.filterMap_cons, List.filter_cons, there] using ih
    | some a => simpa [List.filterMap_cons, List.filter_cons, there, same there] using ih

end Pool

namespace Value

theorem count_handles (vs : List Stored) (r : TextRef) :
    (vs.flatMap handles).count r = vs.countP fun v => v.text? == some r := by
  induction vs with
  | nil => rfl
  | cons v vs ih =>
    rw [List.flatMap_cons, List.count_append, List.countP_cons, ih, Nat.add_comm, handles]
    cases v.text? <;> simp [List.count_singleton]

theorem count_arrays (vs : List Stored) (a : ArrayRef) :
    (vs.flatMap arrays).count a = vs.countP fun v => v == .array a := by
  induction vs with
  | nil => rfl
  | cons v vs ih =>
    rw [List.flatMap_cons, List.count_append, List.countP_cons, ih, Nat.add_comm]
    cases v <;> simp [arrays, List.count_singleton]

end Value

namespace Table

variable {t : Elements}

/-- The values of all slots are those of live ones, and empty ones. -/
theorem Spent.countP_heldValues (spent : t.Spent) {p : Stored → Bool} (none : p .uninitialized = false) :
    t.heldValues.countP p = t.ledger.valuesOn p := by
  rw [valuesOn_ledger, heldValues, List.countP_map]
  refine List.countP_congr fun s mem => ?_
  cases dead : s.deleted with
  | false => simp
  | true =>
    have value : s.value = .uninitialized := spent s mem dead
    simp [value, none]

theorem Spent.count_handles (spent : t.Spent) (r : TextRef) :
    t.handles.count r = t.ledger.keysOn r + t.ledger.valuesOn fun v => v.text? == some r := by
  rw [t.handles_perm.count_eq, List.count_append, Value.count_handles,
    spent.countP_heldValues rfl, keysOn_ledger, heldKeys, List.count, List.countP_map]
  rfl

theorem Spent.count_arrays (spent : t.Spent) (a : ArrayRef) :
    t.arrays.count a = t.ledger.valuesOn fun v => v == .array a := by
  rw [← t.heldValues_arrays, Value.count_arrays, spent.countP_heldValues rfl]

end Table

namespace Cells

open Heap Table

abbrev Book := ℕ → Ledger TextRef Stored

section Notes

variable (c : Cells) (book : Book)

/-- What an action on the array of a cell does to its ledger. -/
def noteTable (i : ℕ) (act : Table.Action TextRef Stored) : Book :=
  (c.array? i).elim book fun a =>
    Function.update book a.place ((book a.place).apply c.heap.bytes act)

/-- The same for an action with the string of a cell as its key. -/
def noteKey (i k : ℕ) (f : TextRef → Table.Action TextRef Stored) : Book :=
  (c.text? k).elim book fun key => c.noteTable book i (f key)

/-- The book after a deed. A new array gets a ledger of its own, which for a copy is that of the table. -/
def note : Deed → Book
  | .set _ v => if v.isArray then Function.update book c.heap.arrays.fresh Ledger.empty else book
  | .insert i k j => c.noteKey book i k fun key => .insert key (c.cell j)
  | .visit i k => c.noteKey book i k fun key => .visit key id
  | .exchange i k j =>
    if j < c.cells.size then
      c.noteKey book i k fun key => .change (c.heap.bytes key) fun _ => c.cell j
    else book
  | .delete i k => c.noteKey book i k fun key => .delete (c.heap.bytes key)
  | .clear i => c.noteTable book i .clear
  | .clone i _ =>
    (c.array? i).elim book fun a => Function.update book c.heap.arrays.fresh (book a.place)
  | .copy _ _ | .rewrite _ _ | .takeKey _ _ _ | .takeValue _ _ _ => book

/-- The book that is kept during a run. -/
def bookAlong : Cells → Book → List Deed → Book
  | _, book, [] => book
  | c, book, d :: deeds => bookAlong (c.perform d) (c.note book d) deeds

end Notes

variable {c : Cells} {book : Book} {h : Heap} {i j k : ℕ} {v : Stored} {a : ArrayRef} {r : TextRef}

/-- Cells whose heap tallies with a book, while no handles are out but theirs. -/
abbrev Tallies (c : Cells) (book : Book) : Prop := c.heap.Tallies c.cells.toList book

theorem cell_eq (inside : i < c.cells.size) : c.cells.toList[i]? = some (c.cell i) := by
  rw [cell, Array.getElem?_toList, Array.getElem?_eq_getElem inside, Option.getD_some]

theorem mem_cells (given : c.cell i ≠ .uninitialized) : c.cell i ∈ c.cells.toList :=
  List.mem_of_getElem? (cell_eq (inside_of_given given))

/-- One cell among the others. -/
theorem cells_perm (inside : i < c.cells.size) :
    c.cells.toList.Perm (c.cell i :: c.cells.toList.eraseIdx i) ∧
      ∀ v, (c.cells.setIfInBounds i v).toList.Perm (v :: c.cells.toList.eraseIdx i) := by
  obtain ⟨lt, at_i⟩ := List.getElem?_eq_some_iff.mp (cell_eq inside)
  refine ⟨at_i ▸ (List.getElem_cons_eraseIdx_perm lt).symm, fun v => ?_⟩
  rw [Array.toList_setIfInBounds]
  exact List.set_perm_cons_eraseIdx lt v

theorem array?_eq (at_i : c.array? i = some a) : c.cell i = .array a := by
  unfold array? at at_i
  split at at_i
  case h_1 b held => rw [held, Option.some.inj at_i]
  case h_2 => cases at_i

theorem array?_mem (at_i : c.array? i = some a) : .array a ∈ c.cells.toList := by
  have held := array?_eq at_i
  rw [← held]
  exact mem_cells (by simp [held])

theorem text?_mem (at_k : c.text? k = some r) : r ∈ c.cells.toList.flatMap Value.handles := by
  refine List.mem_flatMap.mpr ⟨c.cell k, mem_cells ?_, Option.mem_toList.mpr at_k⟩
  intro nothing
  rw [text?, nothing] at at_k
  cases at_k

theorem Tallies.alive_cell (tallies : c.Tallies book) (i : ℕ) : c.heap.Alive (c.cell i) := by
  by_cases given : c.cell i = .uninitialized
  · rw [given]
    exact ⟨nofun, nofun⟩
  · exact tallies.alive (mem_cells given)

/-- The array of a cell is there, with its table. -/
theorem Tallies.array (tallies : c.Tallies book) (at_i : c.array? i = some a) :
    c.heap.arrays.get? a.place = some (c.heap.elements a) :=
  Heap.Tallies.there tallies (array?_mem at_i)

theorem give_tallies (tallies : h.Tallies (v :: c.cells.toList) book) (i : ℕ) :
    (c.give h i v).Tallies book := by
  unfold Cells.give
  split
  case isTrue inside =>
    obtain ⟨before, after⟩ := cells_perm inside
    have swapped := ((before.cons v).trans (.swap _ _ _)).trans ((after v).symm.cons _)
    exact (tallies.perm swapped).releaseAll [c.cell i]
  case isFalse => exact tallies.releaseAll [v]

theorem Tallies.rewrite (tallies : c.Tallies book) (i : ℕ) (content : Bytes) :
    (c.rewrite i content).Tallies book := by
  unfold Cells.rewrite
  split
  case h_1 r held =>
    have inside : i < c.cells.size := inside_of_given (by simp [held])
    obtain ⟨before, after⟩ := cells_perm inside
    rw [held] at before
    exact (Heap.Tallies.rewrite (tallies.perm before) content).perm (after _).symm
  case h_2 => exact tallies

theorem Tallies.withKey {f : ArrayRef → TextRef → Cells} {g : TextRef → Table.Action TextRef Stored}
    (tallies : c.Tallies book)
    (step : ∀ {a key}, c.array? i = some a → c.text? k = some key → (f a key).Tallies
      (Function.update book a.place ((book a.place).apply c.heap.bytes (g key)))) :
    (c.withKey i k f).Tallies (c.noteKey book i k g) := by
  unfold Cells.withKey noteKey noteTable
  cases at_k : c.text? k with
  | none => cases c.array? i <;> exact tallies
  | some key =>
    cases at_i : c.array? i with
    | none => exact tallies
    | some a => exact step at_i at_k

theorem Tallies.exchangeAt (tallies : c.Tallies book) {key : Bytes} {n : ℕ} {s : Slot TextRef Stored}
    (at_i : c.array? i = some a) (slot : (c.heap.elements a).slot? c.heap.bytes key = some n)
    (here : Live c.heap.bytes (c.heap.elements a) n s key) (inside : j < c.cells.size) :
    (c.exchangeAt a n j).Tallies (Function.update book a.place
      ((book a.place).apply c.heap.bytes (.change key fun _ => c.cell j))) := by
  have there := tallies.array at_i
  have lists := (tallies.lists there).apply (.change key fun _ => c.cell j)
  simp only [Table.apply, slot, writeAt, here.valueAt] at lists
  obtain ⟨before, after⟩ := cells_perm inside
  have swapped := (tallies.perm before).setTable [c.cell j] there lists
    (trades_setValue here.slot_at (c.cell j))
  rw [Cells.exchangeAt, if_pos inside, here.valueAt, Option.getD_some]
  exact swapped.perm (after s.value).symm

theorem Tallies.exchange (tallies : c.Tallies book) (i k j : ℕ) :
    (c.perform (.exchange i k j)).Tallies (c.note book (.exchange i k j)) := by
  rw [note]
  split
  case isTrue inside =>
    refine tallies.withKey fun {a key} at_i _ => ?_
    have lists := tallies.lists (tallies.array at_i)
    rcases lists.sound.slot_cases (c.heap.bytes key) with ⟨n, s, slot, here⟩ | ⟨slot, _⟩
    · rw [slot, Option.elim_some]
      exact tallies.exchangeAt at_i slot here inside
    · -- Nothing is there to be swapped, so the ledger stays as it is.
      have lists' := lists.apply (.change (c.heap.bytes key) fun _ => c.cell j)
      simp only [Table.apply, slot] at lists'
      rw [slot, Option.elim_none, ← lists'.ledger_eq, lists.ledger_eq, Function.update_eq_self]
      exact tallies
  case isFalse outside =>
    have idle (a : ArrayRef) (n : ℕ) : c.exchangeAt a n j = c := if_neg outside
    simp only [Cells.perform, Cells.withKey, idle]
    split
    · rename_i a key _ _
      cases (c.heap.elements a).slot? c.heap.bytes (c.heap.bytes key) <;> exact tallies
    · exact tallies

theorem key_mem_held {t : Elements} {n : ℕ} (at_n : t.keys[n]? = some r) : .string r ∈ t.held := by
  obtain ⟨s, live, rfl⟩ := List.mem_map.mp (List.mem_of_getElem? at_n)
  have key : s.key ∈ t.heldKeys := List.mem_map_of_mem (List.mem_filter.mp live).1
  exact List.mem_append_left _ (List.mem_map_of_mem key)

theorem value_mem_held {t : Elements} {key : Bytes} (sound : t.Sound h.bytes)
    (found : t.find? h.bytes key = some v) : v ∈ t.held := by
  rcases sound.find_cases key with ⟨_, _, s, _, here, value⟩ | ⟨_, none⟩
  · rw [Option.some.inj (found.symm.trans value)]
    exact List.mem_append_right _ (List.mem_map_of_mem (List.mem_of_getElem? here.slot_at))
  · cases none.symm.trans found

theorem Tallies.takeValue (tallies : c.Tallies book) (i k j : ℕ) :
    (c.perform (.takeValue i k j)).Tallies book := by
  simp only [Cells.perform, Cells.withKey]
  split
  · rename_i a key at_i _
    have there := tallies.array at_i
    cases found : (c.heap.elements a).find? c.heap.bytes (c.heap.bytes key) with
    | none => exact tallies
    | some v =>
      have held := value_mem_held (tallies.lists there).sound found
      exact give_tallies (tallies.retain (tallies.alive_held there held)) j
  · exact tallies

/-- Each deed leaves cells that tally with the book in which it is noted. -/
theorem Tallies.perform (tallies : c.Tallies book) (d : Deed) : (c.perform d).Tallies (c.note book d) := by
  cases d with
  | set i v => exact give_tallies (Heap.Tallies.add tallies v) i
  | copy i j => exact give_tallies (tallies.retain (tallies.alive_cell j)) i
  | rewrite i content => exact tallies.rewrite i content
  | insert i k j =>
    refine tallies.withKey fun {a _} at_i at_k => ?_
    have retained := tallies.retain (tallies.alive_cell j)
    have there := ((c.heap.retainAll_arrays [c.cell j]).2 a.place).trans (tallies.array at_i)
    rw [← c.heap.bytes_retain (c.cell j)]
    exact retained.insert there (array?_mem at_i) (text?_mem at_k)
  | visit i k =>
    refine tallies.withKey fun at_i at_k => ?_
    exact Heap.Tallies.visit tallies (tallies.array at_i) (array?_mem at_i) (text?_mem at_k)
  | exchange i k j => exact tallies.exchange i k j
  | delete i k =>
    refine tallies.withKey fun at_i _ => ?_
    exact Heap.Tallies.delete tallies (tallies.array at_i) (array?_mem at_i) _
  | clear i =>
    simp only [Cells.perform, note, withTable, noteTable]
    cases at_i : c.array? i with
    | none => exact tallies
    | some a => exact Heap.Tallies.clear tallies (tallies.array at_i) (array?_mem at_i)
  | clone i j =>
    simp only [Cells.perform, note, withTable]
    cases at_i : c.array? i with
    | none => exact tallies
    | some a => exact give_tallies (Heap.Tallies.clone tallies (tallies.array at_i)) j
  | takeKey i n j =>
    simp only [Cells.perform, note, withTable]
    cases at_i : c.array? i with
    | none => exact tallies
    | some a =>
      rw [Option.elim_some]
      cases at_n : (c.heap.elements a).keys[n]? with
      | none => exact tallies
      | some r =>
        have held := tallies.alive_held (tallies.array at_i) (key_mem_held at_n)
        exact give_tallies (tallies.retain held) j
  | takeValue i k j => exact tallies.takeValue i k j

theorem Tallies.performAll (tallies : c.Tallies book) (deeds : List Deed) :
    (c.performAll deeds).Tallies (c.bookAlong book deeds) := by
  induction deeds generalizing c book with
  | nil => exact tallies
  | cons d deeds ih => exact ih (tallies.perform d)

theorem tallies_empty (n : ℕ) : (empty n).Tallies fun _ => Ledger.empty := by
  have nothing {α : Type} (f : Stored → List α) (none : f .uninitialized = []) :
      (empty n).cells.toList.flatMap f = [] := by
    refine List.flatMap_eq_nil_iff.mpr fun v mem => ?_
    have value : v = .uninitialized := List.eq_of_mem_replicate (n := n) (by simpa [empty] using mem)
    rw [value, none]
  refine ⟨?_, ?_, fun there => nomatch there⟩
  · rw [nothing _ rfl]
    exact Texts.Held.empty
  · rw [nothing _ rfl]
    exact fun _ => rfl

/-- After any run of deeds, the handles on a string are as many as the cells that have it, the lines with it
as their key and the entries with it as their value; and likewise for an array. The table of each array
has the lines of its ledger, in which a value that is overwritten or deleted counts no more. -/
theorem performAll_accounts (n : ℕ) (deeds : List Deed) :
    let c := (empty n).performAll deeds
    let book := (empty n).bookAlong (fun _ => Ledger.empty) deeds
    (∀ r : TextRef, c.heap.texts.holders r =
      (c.cells.toList.countP fun v => v.text? == some r) + (c.heap.arrays.inUse.map fun i =>
        (book i).keysOn r + (book i).valuesOn fun v => v.text? == some r).sum) ∧
    (∀ a : ArrayRef, Pool.holders c.heap.arrays a.place =
      (c.cells.toList.countP fun v => v == .array a) + (c.heap.arrays.inUse.map fun i =>
        (book i).valuesOn fun v => v == .array a).sum) ∧
    ∀ {i t}, c.heap.arrays.get? i = some t →
      t.ledger = book i ∧ t.Settles c.heap.bytes (book i) := by
  intro c book
  have tallies : c.Tallies book := (tallies_empty n).performAll deeds
  refine ⟨fun r => ?_, fun a => ?_, fun {i t} there => ?_⟩
  · rw [tallies.held r, List.count_append, Value.count_handles, Heap.inner, List.count_flatMap]
    refine congrArg _ (Pool.sum_contents _ fun {i t} there => ?_)
    obtain ⟨_, spent, ledger⟩ := tallies.lists there
    rw [Function.comp, spent.count_handles, ledger]
  · rw [tallies.owned a, List.count_append, Value.count_arrays, Heap.nested, List.count_flatMap]
    refine congrArg _ (Pool.sum_contents _ fun {i t} there => ?_)
    obtain ⟨_, spent, ledger⟩ := tallies.lists there
    rw [Function.comp, spent.count_arrays, ledger]
  · obtain ⟨sound, _, ledger⟩ := tallies.lists there
    exact ⟨ledger, ledger ▸ sound.settles⟩

/-- An entry that is deleted, while two cells have the string that was its key and its value. -/
theorem performAll_accounts_deleted :
    let deeds : List Deed := [.set 0 (.array ()), .set 1 (.string [107]), .insert 0 1 1, .copy 2 1,
      .delete 0 1]
    let c := (empty 3).performAll deeds
    ∃ t, c.heap.arrays.get? 0 = some t ∧ t.ledger.lines.length = 1 ∧
      c.heap.texts.holders ⟨0⟩ = 2 + 1 := by
  intro deeds c
  have there : (c.heap.arrays.get? 0).isSome = true := by decide +kernel
  obtain ⟨t, there⟩ := Option.isSome_iff_exists.mp there
  obtain ⟨texts, _, tables⟩ := performAll_accounts 3 deeds
  obtain ⟨ledger, _⟩ := tables there
  have lines : ((empty 3).bookAlong (fun _ => Ledger.empty) deeds 0).lines.length = 1 := by
    decide +kernel
  have counts : _ = 2 + 1 := (texts ⟨0⟩).trans (by decide +kernel)
  exact ⟨t, there, by rw [ledger, lines], counts⟩

end Cells

end AwkCore
