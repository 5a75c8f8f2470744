import AwkCore.Proofs.Heap.Shown
import AwkCore.Proofs.Texts.Beside

/-!
# Notes at a desk

Notes are taken of what is done with the table of a desk: the bytes of keys, and values by content, as
they are at the moment when they are stored. Nothing that is done with registers goes into the notes.
Still each action at the desk leaves the table with the entries that the notes list.
-/
namespace AwkCore

namespace Value

variable {σ τ υ α : Type} {f : σ → Option τ}

theorem fill_map (v : Value σ α) (f : σ → Option τ) (g : τ → υ) :
    (v.fill fun s => (f s).map g) = (v.fill f).map fun w => w.map g id := by
  cases v with
  | string s =>
    rw [fill, fill, Option.map_map, Option.map_map]
    rfl
  | numericString s n =>
    rw [fill, fill, Option.map_map, Option.map_map]
    rfl
  | _ => rfl

theorem text?_fill {v : Value σ α} {w : Value τ α} {r : τ} (filled : v.fill f = some w)
    (text : w.text? = some r) : ∃ s, f s = some r := by
  cases v with
  | string s =>
    obtain ⟨r, at_s, rfl⟩ := Option.map_eq_some_iff.mp filled
    exact ⟨s, at_s.trans text⟩
  | numericString s n =>
    obtain ⟨r, at_s, rfl⟩ := Option.map_eq_some_iff.mp filled
    exact ⟨s, at_s.trans text⟩
  | _ =>
    cases filled
    cases text

/-- What a value with another string shows. -/
theorem withText_content (v : Stored) (h : Heap) (r : TextRef) :
    h.content (v.withText r) = (h.content v).withText (h.bytes r) := by
  cases v <;> rfl

theorem withText_handles {v : Stored} {old : TextRef} (text : v.text? = some old) (r : TextRef) :
    (v.withText r).handles = [r] := by
  cases v with
  | string => rfl
  | numericString => rfl
  | _ => cases text

theorem withText_of_none {v : Stored} (text : v.text? = none) (r : TextRef) : v.withText r = v := by
  cases v with
  | string => cases text
  | numericString => cases text
  | _ => rfl

end Value

namespace Desk

open Heap Table

variable {d : Desk} {notes : Dictionary Bytes Content} {rest : List TextRef}

/-- The notes after an action at a desk. -/
def note (d : Desk) (notes : Dictionary Bytes Content) :
    Action → Dictionary Bytes Content
  | .insert i v =>
    match d.text? i, v.fill d.text? with
    | some key, some content => notes.visit id key fun _ => content
    | _, _ => notes
  | .visit i => (d.text? i).elim notes fun key => notes.visit id key id
  | .replace i v =>
    match d.text? i, v.fill d.text? with
    | some key, some content => notes.change id key fun _ => content
    | _, _ => notes
  | .exchange i j =>
    match d.text? i, d.text? j with
    | some key, some text => notes.change id key (·.withText text)
    | _, _ => notes
  | .delete i => (d.text? i).elim notes (notes.erase id)
  | .clear => []
  | .outside _ | .takeKey _ _ | .takeValue _ _ => notes

/-- A desk whose table shows what has been noted, while more handles are out than those of the desk. -/
abbrev Shows (d : Desk) (rest : List TextRef) (notes : Dictionary Bytes Content) : Prop :=
  d.heap.Stands d.table (d.bank.handles ++ rest) notes

/-- What an action leaves: a desk that shows the notes, and the strings of the handles elsewhere. -/
structure Leaves (d d' : Desk) (rest : List TextRef)
    (notes : Dictionary Bytes Content) : Prop where
  shows : d'.Shows rest notes
  kept : ∀ r ∈ rest, d'.heap.bytes r = d.heap.bytes r

theorem Shows.leaves (shows : d.Shows rest notes) : d.Leaves d rest notes := ⟨shows, fun _ _ => rfl⟩

theorem Leaves.of_moves {h : Heap} {t : Elements}
    (moves : Moves d.heap h t (d.bank.handles ++ rest) notes) :
    d.Leaves ⟨h, t, d.registers⟩ rest notes :=
  ⟨moves.toStands, fun r mem => moves.kept r (List.mem_append_right _ mem)⟩

theorem mem_handles {i : ℕ} {r : TextRef} (at_i : d.handle? i = some r) : r ∈ d.bank.handles :=
  Bank.mem_handles at_i

theorem fill_subset {v : Value ℕ Unit} {w : Value TextRef Unit} (filled : v.fill d.handle? = some w) :
    w.text?.toList ⊆ d.bank.handles := by
  intro r mem
  obtain ⟨i, at_i⟩ := Value.text?_fill filled (Option.mem_toList.mp mem)
  exact mem_handles at_i

theorem perm_registers (table registers rest inner : List TextRef) :
    (table ++ (registers ++ rest) ++ inner).Perm (registers ++ (table ++ rest ++ inner)) := by
  rw [List.perm_iff_count]
  intro r
  simp only [List.count_append]
  omega

/-- The handles of the registers, with all others besides. -/
theorem Shows.bank_held (shows : d.Shows rest notes) :
    Texts.Held d.bank.texts (d.bank.handles ++ (d.table.handles ++ rest ++ d.heap.inner)) :=
  Texts.Held.perm shows.held (perm_registers _ _ _ _)

/-- Strings may be changed when the table and the handles elsewhere keep theirs. -/
theorem Shows.withBank {b : Bank} (shows : d.Shows rest notes)
    (held : Texts.Held b.texts (b.handles ++ (d.table.handles ++ rest ++ d.heap.inner)))
    (kept : ∀ r ∈ d.table.handles ++ rest ++ d.heap.inner,
      b.texts.buffer r = d.bank.texts.buffer r) : d.Leaves (d.withBank b) rest notes := by
  have bytes : ∀ r ∈ d.table.handles ++ rest, (d.withBank b).heap.bytes r = d.heap.bytes r :=
    fun r mem => congrArg Buffer.content (kept r (List.mem_append_left _ mem))
  refine ⟨⟨shows.toShows.congr fun r mem => bytes r (List.mem_append_left _ mem), ?_⟩,
    fun r mem => bytes r (List.mem_append_right _ mem)⟩
  exact Texts.Held.perm held (perm_registers _ _ _ _).symm

theorem Shows.outside (shows : d.Shows rest notes) (a : Bank.Action) :
    d.Leaves (d.withBank (d.bank.apply a)) rest notes := by
  obtain ⟨held, kept⟩ := Bank.apply_beside shows.bank_held a
  exact shows.withBank held kept

theorem Shows.take (shows : d.Shows rest notes) {r : TextRef} (mem : r ∈ d.table.handles) (j : ℕ) :
    d.Leaves (d.take j r) rest notes := by
  have out : r ∈ d.bank.handles ++ (d.table.handles ++ rest ++ d.heap.inner) := by simp [mem]
  obtain ⟨held, kept⟩ := Bank.put_beside shows.bank_held out j
  exact shows.withBank held kept

/-- A value from the registers, which takes its handle. -/
theorem Shows.hold (shows : d.Shows rest notes) {v : Value TextRef Unit}
    (mem : v.text?.toList ⊆ d.bank.handles) :
    let q := d.heap.hold v
    Keeps d.heap q.1 (d.table.handles ++ (q.2.handles ++ (d.bank.handles ++ rest))) ∧
      q.1.content q.2 = v.map d.heap.bytes id := by
  intro q
  have out : v.text?.toList ⊆ d.table.handles ++ (d.bank.handles ++ rest) := fun r text =>
    List.mem_append_right _ (List.mem_append_left _ (mem text))
  obtain ⟨⟨held, kept⟩, content⟩ := shows.held.hold out
  have perm := List.perm_append_comm_assoc q.2.handles d.table.handles (d.bank.handles ++ rest)
  refine ⟨⟨held.perm perm, fun r mem => kept r (perm.mem_iff.mpr mem)⟩, ?_⟩
  rw [← content]
  exact content_congr fun r held => kept r (List.mem_append_left _ held)

theorem Shows.insert (shows : d.Shows rest notes) {key : TextRef} {v : Value TextRef Unit}
    (key_mem : key ∈ d.bank.handles) (mem : v.text?.toList ⊆ d.bank.handles) :
    d.Leaves (d.insert key v) rest
      (notes.visit id (d.heap.bytes key) fun _ => v.map d.heap.bytes id) := by
  obtain ⟨keeps, content⟩ := shows.hold mem
  have moved := shows.toShows.keeps keeps
  have inserted := moved.toStands.insert (List.mem_append_left _ key_mem)
  rw [moved.kept key (by simp [key_mem]), content] at inserted
  exact .of_moves (moved.trans inserted (List.subset_append_right _ _))

theorem Shows.visit (shows : d.Shows rest notes) {key : TextRef} (mem : key ∈ d.bank.handles) :
    d.Leaves (d.visit key) rest (notes.visit id (d.heap.bytes key) id) :=
  .of_moves (shows.findOrInsert (List.mem_append_left _ mem)).1

/-- The slot of a key, or none if the key is not in the notes. -/
theorem Shows.slot_cases (shows : d.Shows rest notes) (key : Bytes) :
    (∃ n s, d.table.slot? d.heap.bytes key = some n ∧ Live d.heap.bytes d.table n s key) ∨
      (d.table.slot? d.heap.bytes key = none ∧ notes.entry? id key = none) := by
  rcases shows.sound.slot_cases key with found | ⟨slot, absent⟩
  · exact .inl found
  · refine .inr ⟨slot, ?_⟩
    rw [← shows.shown_eq, shown, Dictionary.entry?_image, entry_none absent, Option.map_none]

theorem Shows.storeAt (shows : d.Shows rest notes) {key : Bytes} {n : ℕ}
    {s : Slot TextRef Stored} {v : Value TextRef Unit}
    (here : Live d.heap.bytes d.table n s key) (mem : v.text?.toList ⊆ d.bank.handles) :
    d.Leaves (d.storeAt n v) rest (notes.change id key fun _ => v.map d.heap.bytes id) := by
  obtain ⟨keeps, content⟩ := shows.hold mem
  have moved := shows.toShows.keeps keeps
  have slot_mem := key_mem_handles (List.mem_of_getElem? here.slot_at)
  have key_eq := (keeps.kept s.key (List.mem_append_left _ slot_mem)).trans here.key_eq
  have stored := moved.toStands.storeAt ⟨here.slot_at, here.live, key_eq⟩
  rw [content] at stored
  exact .of_moves (moved.trans stored (List.subset_append_right _ _))

theorem Shows.exchangeAt (shows : d.Shows rest notes) {key : Bytes} {n j : ℕ}
    {s : Slot TextRef Stored} {r : TextRef} (here : Live d.heap.bytes d.table n s key)
    (at_j : d.handle? j = some r) :
    d.Leaves (d.exchangeAt n j) rest (notes.change id key (·.withText (d.heap.bytes r))) := by
  have content (v : Stored) := v.withText_content d.heap r
  cases text : s.value.text? with
  | none =>
    have same := Value.withText_of_none text r
    have exchanged : d.exchangeAt n j = d := by simp [Desk.exchangeAt, here.valueAt, at_j, text]
    have none : s.value.handles = [] := by rw [Value.handles, text, Option.toList_none]
    have stands : d.heap.Stands d.table
        ((s.value.withText r).handles ++ (d.bank.handles ++ rest)) notes := by
      simpa [same, none] using shows
    have written := Stands.writeAt (f := (·.withText r)) stands here content
    rw [same, setValue_self here.slot_at, none] at written
    rw [exchanged]
    exact Shows.leaves written
  | some old =>
    have exchanged : d.exchangeAt n j = { d with
        table := d.table.setValue n (s.value.withText r)
        registers := d.registers.setIfInBounds j (some old) } := by
      simp [Desk.exchangeAt, here.valueAt, at_j, text]
    have one : s.value.handles = [old] := by rw [Value.handles, text, Option.toList_some]
    have others := shows.perm ((Bank.handles_perm_cons at_j).append_right rest)
    have stands : d.heap.Stands d.table
        ((s.value.withText r).handles ++ (d.bank.others j ++ rest)) notes := by
      rwa [Value.withText_handles text]
    have written := Stands.writeAt (f := (·.withText r)) stands here content
    rw [one] at written
    have placed := Bank.place_handles_perm (Bank.lt_of_handle at_j) d.bank.texts (some old)
    rw [exchanged]
    exact ⟨written.perm (placed.symm.append_right rest), fun _ _ => rfl⟩

theorem keys_subset {r : TextRef} (mem : r ∈ d.table.keys) : r ∈ d.table.handles := by
  obtain ⟨s, live, rfl⟩ := List.mem_map.mp mem
  exact key_mem_handles (List.mem_filter.mp live).1

theorem value_subset {n : ℕ} {v : Stored} {r : TextRef} (at_n : d.table.valueAt? n = some v)
    (text : v.text? = some r) : r ∈ d.table.handles := by
  rw [valueAt?, Sequence.get?_eq] at at_n
  obtain ⟨s, slot, rfl⟩ := Option.map_eq_some_iff.mp at_n
  exact value_mem_handles (List.mem_of_getElem? slot) (Option.mem_toList.mpr text)

theorem fill_text (v : Value ℕ Unit) :
    v.fill d.text? = (v.fill d.handle?).map fun w => w.map d.heap.bytes id :=
  v.fill_map d.handle? d.heap.bytes

/-- Each action does to the table what it does to the notes, and actions on registers do nothing. -/
theorem Shows.apply (shows : d.Shows rest notes) (a : Action) :
    d.Leaves (d.apply a) rest (d.note notes a) := by
  cases a with
  | outside a => exact shows.outside a
  | insert i v =>
    simp only [Desk.apply, note, text?, fill_text]
    cases at_i : d.handle? i with
    | none => exact shows.leaves
    | some key =>
      cases filled : v.fill d.handle? with
      | none => exact shows.leaves
      | some w => exact shows.insert (mem_handles at_i) (fill_subset filled)
  | visit i =>
    simp only [Desk.apply, note, text?]
    cases at_i : d.handle? i with
    | none => exact shows.leaves
    | some key => exact shows.visit (mem_handles at_i)
  | replace i v =>
    simp only [Desk.apply, note, slot?, fill_text]
    cases d.text? i with
    | none => exact shows.leaves
    | some key =>
      rw [Option.bind_some]
      cases filled : v.fill d.handle? with
      | none => cases d.table.slot? d.heap.bytes key <;> exact shows.leaves
      | some w =>
        rcases shows.slot_cases key with ⟨n, s, slot, here⟩ | ⟨slot, absent⟩
        · rw [slot]
          exact shows.storeAt here (fill_subset filled)
        · rw [slot]
          simpa only [Option.map_some, Table.Dictionary.change_absent absent] using shows.leaves
  | exchange i j =>
    simp only [Desk.apply, note, slot?]
    cases d.text? i with
    | none => exact shows.leaves
    | some key =>
      rcases shows.slot_cases key with ⟨n, s, slot, here⟩ | ⟨slot, absent⟩
      · rw [Option.bind_some, slot, Option.elim_some, text?]
        cases at_j : d.handle? j with
        | none =>
          have idle : d.exchangeAt n j = d := by simp [Desk.exchangeAt, here.valueAt, at_j]
          rw [idle]
          exact shows.leaves
        | some r => exact shows.exchangeAt here at_j
      · rw [Option.bind_some, slot, Option.elim_none]
        cases d.text? j with
        | none => exact shows.leaves
        | some text =>
          simpa only [Table.Dictionary.change_absent absent] using shows.leaves
  | delete i =>
    simp only [Desk.apply, note]
    cases d.text? i with
    | none => exact shows.leaves
    | some key => exact .of_moves (Stands.delete shows key)
  | clear => exact .of_moves (Stands.clear shows)
  | takeKey n j =>
    simp only [Desk.apply, note]
    cases at_n : d.table.keys[n]? with
    | none => exact shows.leaves
    | some r => exact shows.take (keys_subset (List.mem_of_getElem? at_n)) j
  | takeValue i j =>
    simp only [Desk.apply, note]
    cases taken : ((d.slot? i).bind d.table.valueAt?).bind Value.text? with
    | none => exact shows.leaves
    | some r =>
      obtain ⟨v, stored, text⟩ := Option.bind_eq_some_iff.mp taken
      obtain ⟨n, _, at_n⟩ := Option.bind_eq_some_iff.mp stored
      exact shows.take (value_subset at_n text) j

end Desk

end AwkCore
