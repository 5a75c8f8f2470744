import AwkCore.Heap
import AwkCore.Proofs.Table.Rebuilt

/-!
# Tables as dictionaries in order of insertion

A dictionary lists keys with their values in the order in which the keys came in. It is searched from
the front, its values are overwritten where they stand, and new keys are added at the end. Every run
of operations on a table gives the answers that the same run on a dictionary gives, and leaves the
entries that the dictionary lists.
-/
namespace AwkCore

variable {κ ν : Type}

/-- What can be done with a table. A write is a function of the value that is found. -/
inductive Table.Action (κ ν : Type)
  | find (key : Bytes)
  | contains (key : Bytes)
  | change (key : Bytes) (f : ν → ν)
  | visit (key : κ) (f : ν → ν)
  | insert (key : κ) (value : ν)
  | delete (key : Bytes)
  | clear
  | length
  | entries
  | keys

/-- What an action answers. A visit answers the entry as it was found or made, and whether it was
made. -/
inductive Table.Answer (κ ν : Type)
  | done
  | value (v : Option ν)
  | flag (b : Bool)
  | visited (entry : Option (κ × ν)) (created : Bool)
  | count (n : ℕ)
  | entries (es : List (κ × ν))
  | keys (ks : List κ)

abbrev Dictionary (κ ν : Type) := List (κ × ν)

namespace Dictionary

variable (view : κ → Bytes) (d : Dictionary κ ν)

def entry? (key : Bytes) : Option (κ × ν) := d.find? fun e => view e.1 == key

def change (key : Bytes) (f : ν → ν) : Dictionary κ ν :=
  d.map fun e => if view e.1 == key then (e.1, f e.2) else e

/-- Change the value of a key; a key that is not there is added with a default value first. -/
def visit [Inhabited ν] (key : κ) (f : ν → ν) : Dictionary κ ν :=
  if (d.entry? view (view key)).isSome then d.change view (view key) f else d ++ [(key, f default)]

def erase (key : Bytes) : Dictionary κ ν := d.filter fun e => view e.1 != key

def apply [Inhabited ν] : Table.Action κ ν → Dictionary κ ν × Table.Answer κ ν
  | .find key => (d, .value ((d.entry? view key).map Prod.snd))
  | .contains key => (d, .flag (d.entry? view key).isSome)
  | .change key f => (d.change view key f, .value ((d.entry? view key).map Prod.snd))
  | .visit key f =>
    (d.visit view key f,
      match d.entry? view (view key) with
      | some e => .visited (some e) false
      | none => .visited (some (key, default)) true)
  | .insert key value => (d.visit view key fun _ => value, .done)
  | .delete key => (d.erase view key, .flag (d.entry? view key).isSome)
  | .clear => ([], .done)
  | .length => (d, .count d.length)
  | .entries => (d, .entries d)
  | .keys => (d, .keys (d.map Prod.fst))

def run [Inhabited ν] : Dictionary κ ν → List (Table.Action κ ν) →
    Dictionary κ ν × List (Table.Answer κ ν)
  | d, [] => (d, [])
  | d, a :: as =>
    let step := d.apply view a
    let rest := run step.1 as
    (rest.1, step.2 :: rest.2)

end Dictionary

namespace Table

variable (view : κ → Bytes) (t : Table κ ν)

def writeAt (n : ℕ) (f : ν → ν) : Table κ ν :=
  match t.valueAt? n with
  | some v => t.setValue n (f v)
  | none => t

def entryAt? (n : ℕ) : Option (κ × ν) := (t.slots.get? n).map fun s => (s.key, s.value)

def apply [Inhabited ν] : Action κ ν → Table κ ν × Answer κ ν
  | .find key => (t, .value (t.find? view key))
  | .contains key => (t, .flag (t.contains view key))
  | .change key f =>
    match t.slot? view key with
    | some n => (t.writeAt n f, .value (t.valueAt? n))
    | none => (t, .value none)
  | .visit key f =>
    let q := t.findOrInsert view key
    (q.table.writeAt q.slot f, .visited (q.table.entryAt? q.slot) q.created)
  | .insert key value =>
    let q := t.findOrInsert view key
    (q.table.setValue q.slot value, .done)
  | .delete key => ((t.delete view key).1, .flag (t.delete view key).2.isSome)
  | .clear => (t.clear, .done)
  | .length => (t, .count t.live)
  | .entries => (t, .entries t.entries)
  | .keys => (t, .keys t.keys)

def run [Inhabited ν] : Table κ ν → List (Action κ ν) → Table κ ν × List (Answer κ ν)
  | t, [] => (t, [])
  | t, a :: as =>
    let step := t.apply view a
    let rest := run step.1 as
    (rest.1, step.2 :: rest.2)

variable {view t}

theorem Live.valueAt {n : ℕ} {s : Slot κ ν} {key : Bytes} (h : Live view t n s key) :
    t.valueAt? n = some s.value := by simp [valueAt?, Sequence.get?_eq, h.slot_at]

theorem Live.entryAt {n : ℕ} {s : Slot κ ν} {key : Bytes} (h : Live view t n s key) :
    t.entryAt? n = some (s.key, s.value) := by simp [entryAt?, Sequence.get?_eq, h.slot_at]

/-- The live slot of a key is the only one that has it. -/
theorem Live.only {n : ℕ} {s : Slot κ ν} {key : Bytes} (h : Sound view t)
    (here : Live view t n s key) (i : ℕ) (r : Slot κ ν) (hr : t.slots.toList[i]? = some r) :
    (!r.deleted && view r.key == key) = true ↔ n = i := by
  constructor
  · intro live
    simp only [Bool.and_eq_true, Bool.not_eq_true', beq_iff_eq] at live
    exact here.unique h ⟨hr, live.1, live.2⟩
  · rintro rfl
    obtain rfl : s = r := Option.some.inj (here.slot_at.symm.trans hr)
    simp [here.live, here.key_eq]

theorem Live.entry {n : ℕ} {s : Slot κ ν} {key : Bytes} (h : Sound view t)
    (here : Live view t n s key) :
    Dictionary.entry? view t.entries key = some (s.key, s.value) := by
  cases found : Dictionary.entry? view t.entries key with
  | none =>
    have absent := List.find?_eq_none.mp found _ (List.mem_map_of_mem here.mem)
    exact absurd here.key_eq (by simpa using absent)
  | some e =>
    obtain ⟨r, hr, rfl⟩ := List.mem_map.mp (List.mem_of_find?_eq_some found)
    have key_eq : view r.key = key := by simpa using List.find?_some found
    obtain ⟨m, hm⟩ : ∃ m, Live view t m r (view r.key) := live_of_mem hr
    obtain rfl := here.unique h (key_eq ▸ hm)
    obtain rfl : s = r := Option.some.inj (here.slot_at.symm.trans hm.slot_at)
    rfl

theorem entry_none {key : Bytes} (absent : ∀ s ∈ t.liveSlots, view s.key ≠ key) :
    Dictionary.entry? view t.entries key = none := by
  apply List.find?_eq_none.mpr
  intro e he
  obtain ⟨s, hs, rfl⟩ := List.mem_map.mp he
  simpa using absent s hs

theorem Live.writeAt_entries {n : ℕ} {s : Slot κ ν} {key : Bytes} (h : Sound view t)
    (here : Live view t n s key) (f : ν → ν) :
    (t.writeAt n f).entries = Dictionary.change view t.entries key f := by
  let g (a : Slot κ ν) : Slot κ ν := { a with value := f a.value }
  have slots : (t.writeAt n f).slots.toList = t.slots.toList.modify n g := by
    rw [modify_eq_set here.slot_at, writeAt, here.valueAt]
    exact (Sequence.toList_modify _ _ _).trans (modify_eq_set here.slot_at)
  rw [entries, liveSlots, slots, modify_eq_map (here.only h), entries, liveSlots, Dictionary.change,
    List.filter_map, List.map_map, List.map_map]
  have live : ((fun s : Slot κ ν => !s.deleted) ∘ fun a =>
      if (!a.deleted && view a.key == key) = true then g a else a) = fun s => !s.deleted := by
    funext a
    simp only [Function.comp]
    split <;> rfl
  rw [live]
  apply List.map_congr_left
  intro a ha
  have live := (List.mem_filter.mp ha).2
  simp only [Function.comp, live, Bool.true_and]
  split <;> rfl

theorem setValue_eq_writeAt {n : ℕ} {s : Slot κ ν} {key : Bytes} (here : Live view t n s key)
    (v : ν) : t.setValue n v = t.writeAt n fun _ => v := by
  rw [writeAt, here.valueAt]

theorem Sound.writeAt (h : Sound view t) (n : ℕ) (f : ν → ν) : Sound view (t.writeAt n f) := by
  unfold Table.writeAt
  split
  · exact h.setValue _ _
  · exact h

theorem Live.bury_entries [Inhabited ν] {p n : ℕ} {s : Slot κ ν} {key : Bytes} (h : Sound view t)
    (here : Live view t n s key) :
    (t.bury p n).entries = Dictionary.erase view t.entries key := by
  have slots : (t.bury p n).slots.toList = t.slots.toList.modify n Slot.bury :=
    Sequence.toList_modify _ _ _
  rw [entries, liveSlots, slots, modify_eq_map (here.only h), entries, liveSlots, Dictionary.erase,
    List.filter_map, List.filter_map, List.map_map, List.filter_filter]
  have live : ((fun s : Slot κ ν => !s.deleted) ∘ fun a =>
      if (!a.deleted && view a.key == key) = true then a.bury else a) =
      fun s => view s.key != key && !s.deleted := by
    funext a
    simp only [Function.comp]
    split <;> simp_all [Slot.bury, bne]
  rw [live]
  apply List.map_congr_left
  intro a ha
  have other := (List.mem_filter.mp ha).2
  simp only [Bool.and_eq_true, bne_iff_ne] at other
  simp [Function.comp, other.1]

/-- A search in a sound table finds the live slot of the key, or shows that there is none. -/
theorem Sound.search (h : Sound view t) (key : Bytes) :
    (∃ p n s, t.probe view key = .found p n ∧ t.index[p]? = some (.slot n) ∧ Live view t n s key) ∨
      ∃ p, t.probe view key = .vacant p ∧ ∀ s ∈ t.liveSlots, view s.key ≠ key := by
  cases probe : t.probe view key with
  | found p n =>
    obtain ⟨mark, s, here⟩ := h.probe_found probe
    exact .inl ⟨p, n, s, rfl, mark, here⟩
  | vacant p => exact .inr ⟨p, rfl, (h.probe_vacant probe).2.2⟩
  | exhausted => exact absurd probe (h.probe_ne_exhausted key)

theorem Sound.slot_cases (h : Sound view t) (key : Bytes) :
    (∃ n s, t.slot? view key = some n ∧ Live view t n s key) ∨
      (t.slot? view key = none ∧ ∀ s ∈ t.liveSlots, view s.key ≠ key) := by
  rcases h.search key with ⟨p, n, s, probe, _, here⟩ | ⟨p, probe, absent⟩
  · exact .inl ⟨n, s, by simp [slot?, probe], here⟩
  · exact .inr ⟨by simp [slot?, probe], absent⟩

theorem Sound.find_eq (h : Sound view t) (key : Bytes) :
    t.find? view key = (Dictionary.entry? view t.entries key).map Prod.snd := by
  rcases h.slot_cases key with ⟨n, s, slot, here⟩ | ⟨slot, absent⟩
  · simp [find?, slot, here.valueAt, here.entry h]
  · simp [find?, slot, entry_none absent]

theorem Sound.contains_eq (h : Sound view t) (key : Bytes) :
    t.contains view key = (Dictionary.entry? view t.entries key).isSome := by
  rcases h.slot_cases key with ⟨n, s, slot, here⟩ | ⟨slot, absent⟩
  · simp [contains, slot, here.entry h]
  · simp [contains, slot, entry_none absent]

theorem Dictionary.change_absent {d : Dictionary κ ν} {key : Bytes}
    (absent : d.entry? view key = none) (f : ν → ν) : d.change view key f = d := by
  have other := List.find?_eq_none.mp absent
  rw [Dictionary.change, List.map_congr_left (g := id), List.map_id]
  intro e he
  rw [if_neg (other e he)]
  rfl

theorem Sound.entries_nodup (h : Sound view t) : (t.entries.map fun e => view e.1).Nodup := by
  rw [entries, List.map_map]
  exact h.distinct

section Step

variable [Inhabited ν]

theorem Created.entries {key : κ} {q : Placement κ ν} (h : Created view t key q) :
    q.table.entries = t.entries ++ [(key, default)] := by
  rw [Table.entries, h.liveSlots_eq, List.map_append]
  rfl

/-- Writing to the slot that an insertion answers does what a visit does to the dictionary. -/
theorem Sound.visit_entries (h : Sound view t) (key : κ) (f : ν → ν) :
    ((t.findOrInsert view key).table.writeAt (t.findOrInsert view key).slot f).entries =
      Dictionary.visit view t.entries key f := by
  rcases h.findOrInsert key with found | made
  · obtain ⟨s, here⟩ := found.live
    rw [found.table_eq, here.writeAt_entries h, Dictionary.visit, here.entry h]
    rfl
  · have absent := entry_none made.fresh
    rw [made.live.writeAt_entries made.sound, made.entries, Dictionary.visit, absent]
    have old : Dictionary.change view t.entries (view key) f = t.entries :=
      Dictionary.change_absent absent f
    rw [Dictionary.change, List.map_append, ← Dictionary.change, old]
    simp

theorem Sound.visit_sound (h : Sound view t) (key : κ) : Sound view (t.findOrInsert view key).table := by
  rcases h.findOrInsert key with found | made
  · rw [found.table_eq]
    exact h
  · exact made.sound

theorem Sound.insert_eq (h : Sound view t) (key : κ) (v : ν) :
    (t.findOrInsert view key).table.setValue (t.findOrInsert view key).slot v =
      (t.findOrInsert view key).table.writeAt (t.findOrInsert view key).slot fun _ => v := by
  rcases h.findOrInsert key with found | made
  · obtain ⟨s, here⟩ := found.live
    rw [found.table_eq]
    exact setValue_eq_writeAt here v
  · exact setValue_eq_writeAt made.live v

/-- A table after an action, and its answer, beside those of a dictionary. -/
structure Agrees (view : κ → Bytes) (ours : Table κ ν × Answer κ ν)
    (theirs : Dictionary κ ν × Answer κ ν) : Prop where
  sound : Sound view ours.1
  entries_eq : ours.1.entries = theirs.1
  answer_eq : ours.2 = theirs.2

/-- An action on a sound table does what it does on the dictionary of its entries. -/
theorem Sound.apply (h : Sound view t) (a : Action κ ν) :
    Agrees view (t.apply view a) (Dictionary.apply view t.entries a) := by
  cases a with
  | find key => exact ⟨h, rfl, congrArg Answer.value (h.find_eq key)⟩
  | contains key => exact ⟨h, rfl, congrArg Answer.flag (h.contains_eq key)⟩
  | change key f =>
    rcases h.slot_cases key with ⟨n, s, slot, here⟩ | ⟨slot, absent⟩
    · simp only [Table.apply, slot, Dictionary.apply, here.valueAt, here.entry h]
      exact ⟨h.writeAt n f, here.writeAt_entries h f, rfl⟩
    · have none := entry_none absent
      simp only [Table.apply, slot, Dictionary.apply, none, Dictionary.change_absent none]
      exact ⟨h, rfl, rfl⟩
  | visit key f =>
    refine ⟨(h.visit_sound key).writeAt _ f, h.visit_entries key f, ?_⟩
    rcases h.findOrInsert key with found | made
    · obtain ⟨s, here⟩ := found.live
      simp only [Table.apply, Dictionary.apply, here.entry h, found.table_eq, found.not_created,
        here.entryAt]
    · simp only [Table.apply, Dictionary.apply, entry_none made.fresh, made.created,
        made.live.entryAt]
      rfl
  | insert key value =>
    simp only [Table.apply, Dictionary.apply, h.insert_eq key value]
    exact ⟨(h.visit_sound key).writeAt _ _, h.visit_entries key _, rfl⟩
  | delete key =>
    rcases h.search key with ⟨p, n, s, probe, mark, here⟩ | ⟨p, probe, absent⟩
    · simp only [Table.apply, Dictionary.apply, delete_found probe, here.entry h, here.valueAt]
      exact ⟨h.bury mark, here.bury_entries h, rfl⟩
    · have none := entry_none absent
      have erased : Dictionary.erase view t.entries key = t.entries := by
        apply List.filter_eq_self.mpr
        intro e he
        simpa [bne] using List.find?_eq_none.mp none e he
      simp only [Table.apply, Dictionary.apply, Table.delete, probe, none, erased]
      exact ⟨h, rfl, rfl⟩
  | clear =>
    exact ⟨h.clear, by simp [Table.apply, Dictionary.apply, entries, liveSlots, Table.clear,
      Table.ofSize], rfl⟩
  | length =>
    refine ⟨h, rfl, congrArg Answer.count ?_⟩
    rw [entries, List.length_map, liveSlots_length h]
  | entries => exact ⟨h, rfl, rfl⟩
  | keys =>
    refine ⟨h, rfl, congrArg Answer.keys ?_⟩
    rw [entries, List.map_map]
    rfl

theorem Sound.run (h : Sound view t) (actions : List (Action κ ν)) :
    Sound view (t.run view actions).1 ∧
      (t.run view actions).1.entries = (Dictionary.run view t.entries actions).1 ∧
      (t.run view actions).2 = (Dictionary.run view t.entries actions).2 := by
  induction actions generalizing t with
  | nil => exact ⟨h, rfl, rfl⟩
  | cons a actions ih =>
    have step := h.apply a
    obtain ⟨sound, entries, answers⟩ := ih step.sound
    rw [step.entries_eq] at entries answers
    exact ⟨sound, entries, congrArg₂ List.cons step.answer_eq answers⟩

/-- Whatever is done with a new table, its answers and entries are those of a dictionary, which has
each key once. -/
theorem run_new_eq_dictionary (view : κ → Bytes) (actions : List (Action κ ν)) :
    (run view new actions).2 = (Dictionary.run view [] actions).2 ∧
      (run view new actions).1.entries = (Dictionary.run view [] actions).1 ∧
      ((Dictionary.run view ([] : Dictionary κ ν) actions).1.map fun e => view e.1).Nodup := by
  have start : Sound view (new : Table κ ν) := Sound.new
  obtain ⟨sound, entries, answers⟩ := start.run actions
  have none : (new : Table κ ν).entries = [] := rfl
  rw [none] at entries answers
  exact ⟨answers, entries, entries ▸ sound.entries_nodup⟩

end Step

end Table

namespace Heap

variable (h : Heap) (t : Elements)

end Heap

end AwkCore
