import AwkCore.Proofs.Table.Dictionary

/-!
# The slots after an insertion

An insertion finds its key, or appends a slot for it, or drops the deleted slots and appends one. In
any case it leaves the entries of the key's visit to the dictionary, and the live slot of the key. A
table stays sound when its keys are read in another way, as long as they have the same bytes.
-/
namespace AwkCore

namespace Dictionary

variable {κ ν : Type} {view : κ → Bytes} {d : Dictionary κ ν} {key : Bytes} {f : ν → ν}

theorem change_id : d.change view key id = d := by
  have same : ∀ e ∈ d, (if view e.1 == key then (e.1, id e.2) else e) = e :=
    fun e _ => ite_self e
  rw [change, List.map_congr_left same, List.map_id']

/-- Writing to a key that has been found or added. -/
theorem change_visit [Inhabited ν] {k : κ} (at_key : view k = key) :
    (d.visit view k id).change view key f = d.visit view k f := by
  rw [visit, visit, at_key]
  split
  · rw [change_id]
  · rename_i absent
    have none : d.entry? view key = none := by simpa using absent
    have old : d.change view key f = d := Table.Dictionary.change_absent none f
    rw [change, List.map_append, ← change, old]
    simp [at_key]

theorem erase_absent (absent : d.entry? view key = none) : d.erase view key = d := by
  refine List.filter_eq_self.mpr fun e mem => ?_
  simpa [bne] using List.find?_eq_none.mp absent e mem

end Dictionary

namespace Table

variable {κ ν : Type} {view view' : κ → Bytes} {t : Table κ ν}

/-- Only the bytes of the keys matter. -/
theorem Sound.congr (h : Sound view t) (same : ∀ s ∈ t.slots.toList, view' s.key = view s.key) :
    Sound view' t := by
  refine { h with hash_eq := ?_, distinct := ?_ }
  · intro s mem
    rw [same s mem]
    exact h.hash_eq s mem
  · have keys : (t.liveSlots.map fun s => view' s.key) = t.liveSlots.map fun s => view s.key :=
      List.map_congr_left fun s mem => same s (List.mem_filter.mp mem).1
    rw [keys]
    exact h.distinct

theorem Sound.rebuild_slots (h : Sound view t) : t.rebuild.slots.toList = t.liveSlots := by
  have grown := h.rebuild
  have all : t.rebuild.liveSlots = t.rebuild.slots.toList := by
    refine List.filter_eq_self.mpr (List.countP_eq_length.mp ?_)
    rw [grown.sound.live_eq, grown.sound.slots_length, grown.deleted_eq, Nat.add_zero]
  rw [← all, h.rebuild_liveSlots]

variable [Inhabited ν]

/-- The slots after an insertion: those before and a new one, or the live ones of them and a new one
when the others are dropped. -/
inductive Placed (view : κ → Bytes) (t : Table κ ν) (key : κ) : Placement κ ν → Prop
  | found (n : ℕ) : Placed view t key ⟨t, n, false, []⟩
  | added {u : Table κ ν} {n : ℕ} (slots : u.slots.toList = t.slots.toList ++ [newSlot view key]) :
    Placed view t key ⟨u, n, true, []⟩
  | rebuilt {u : Table κ ν} {n : ℕ} (slots : u.slots.toList = t.liveSlots ++ [newSlot view key]) :
    Placed view t key ⟨u, n, true, t.deadKeys⟩

theorem Sound.placed (h : Sound view t) (key : κ) : Placed view t key (t.findOrInsert view key) := by
  cases probe : t.probe view (view key) with
  | found p n =>
    rw [findOrInsert_found probe]
    exact .found n
  | exhausted => exact absurd probe (h.probe_ne_exhausted _)
  | vacant p =>
    rw [findOrInsert_vacant probe]
    split
    · exact .added (Sequence.toList_append _ _)
    · obtain ⟨p, vacant⟩ := h.rebuild_sound.emptyPlace_isSome (hashBytes (view key))
      refine .rebuilt ?_
      rw [Table.reattach, newSlot, vacant, ← h.rebuild_slots]
      exact Sequence.toList_append _ _

/-- A key that is found or inserted has a live slot, and nothing else happens to the entries. -/
theorem Sound.findOrInsert_entries (sound : Sound view t) (key : κ) :
    let q := t.findOrInsert view key
    q.table.entries = Dictionary.visit view t.entries key id ∧
      ∃ s, Live view q.table q.slot s (view key) := by
  intro q
  rcases sound.findOrInsert key with found | made
  · obtain ⟨s, here⟩ := found.live
    refine ⟨?_, s, by rwa [found.table_eq]⟩
    rw [found.table_eq, Dictionary.visit, here.entry sound, Option.isSome_some, if_pos rfl,
      Dictionary.change_id]
  · refine ⟨?_, _, made.live⟩
    rw [made.entries, Dictionary.visit, entry_none made.fresh]
    rfl

end Table

end AwkCore
