import AwkCore.Proofs.Heap.Held
import AwkCore.Proofs.Table.Placed

/-!
# Tables by content

A table on a heap shows a dictionary: its keys and values by content, in order of insertion. `Stands`
says so of a table that keeps account of its handles beside others that are out. An operation on the
table does to the dictionary what its name says, whatever buffers the keys and values share.
-/
namespace AwkCore

namespace Dictionary

variable {κ ν μ : Type} {view : κ → Bytes} {c : ν → μ} {d : Dictionary κ ν} {key : Bytes}
  {f : ν → ν} {f' : μ → μ}

/-- A dictionary with its keys and values seen in some way. -/
def image (view : κ → Bytes) (c : ν → μ) (d : Dictionary κ ν) : Dictionary Bytes μ :=
  d.map fun e => (view e.1, c e.2)

theorem entry?_image : Dictionary.entry? id (d.image view c) key =
    (d.entry? view key).map fun e => (view e.1, c e.2) := by
  rw [Dictionary.entry?, image, List.find?_map]
  rfl

theorem image_change (same : ∀ v, c (f v) = f' (c v)) :
    (d.change view key f).image view c = (d.image view c).change id key f' := by
  rw [change, change, image, image, List.map_map, List.map_map]
  apply List.map_congr_left
  intro e _
  simp only [Function.comp, id]
  split
  · rw [same]
  · rfl

theorem image_erase : (d.erase view key).image view c = (d.image view c).erase id key := by
  rw [erase, erase, image, image, List.filter_map]
  rfl

theorem image_visit [Inhabited ν] [Inhabited μ] {k : κ} (same : ∀ v, c (f v) = f' (c v))
    (start : c default = default) :
    (d.visit view k f).image view c = (d.image view c).visit id (view k) f' := by
  rw [visit, visit, id, entry?_image, Option.isSome_map]
  split
  · exact image_change same
  · rw [image, List.map_append, List.map_singleton, same, start]
    rfl

end Dictionary

namespace Table

variable {t : Elements} {view : TextRef → Bytes} {key : TextRef}
  {q : Placement TextRef Stored}

/-- A deleted slot has no handle on a value. -/
def Blank (t : Elements) : Prop :=
  ∀ s ∈ t.slots.toList, s.deleted = true → s.value.handles = []

theorem Placed.blank (placed : Placed view t key q) (blank : t.Blank) : q.table.Blank := by
  have new : ∀ s ∈ [newSlot (ν := Stored) view key], s.deleted = true → s.value.handles = [] := by
    simp [newSlot]
  cases placed with
  | found => exact blank
  | added slots =>
    rw [Blank, slots]
    exact List.forall_mem_append.mpr ⟨blank, new⟩
  | rebuilt slots =>
    rw [Blank, slots]
    exact List.forall_mem_append.mpr ⟨fun s mem => blank s (List.mem_filter.mp mem).1, new⟩

theorem Blank.deadKeys_eq (blank : t.Blank) :
    t.deadKeys = (t.slots.toList.filter Slot.deleted).flatMap Slot.handles := by
  have keys : ∀ s ∈ t.slots.toList.filter Slot.deleted, s.handles = [s.key] := by
    intro s mem
    obtain ⟨held, dead⟩ := List.mem_filter.mp mem
    rw [Slot.handles, blank s held dead]
  rw [List.flatMap_congr keys, deadKeys, List.map_eq_flatMap]

/-- Live slots and the keys of deleted ones have all handles of a table. -/
theorem Blank.handles_perm (blank : t.Blank) :
    (t.deadKeys ++ t.liveSlots.flatMap Slot.handles).Perm t.handles := by
  rw [blank.deadKeys_eq, ← List.flatMap_append]
  exact (List.filter_append_perm _ _).flatMap_right _

theorem handles_newSlot : (newSlot view key).handles = [key] := rfl

/-- An insertion takes a handle on a new key, and the keys that it drops lose theirs. -/
theorem Placed.handles_perm (placed : Placed view t key q) (blank : t.Blank) :
    (q.dropped ++ q.table.handles).Perm ((if q.created then [key] else []) ++ t.handles) := by
  cases placed with
  | found => exact List.Perm.refl _
  | @added u n slots =>
    change u.handles.Perm (key :: t.handles)
    rw [handles, slots, List.flatMap_append, List.flatMap_singleton, handles_newSlot]
    exact List.perm_append_comm
  | @rebuilt u n slots =>
    change (t.deadKeys ++ u.handles).Perm (key :: t.handles)
    rw [handles, slots, List.flatMap_append, List.flatMap_singleton, handles_newSlot,
      ← List.append_assoc]
    exact List.perm_append_comm.trans (blank.handles_perm.cons key)

/-- Another value in a slot: its handle comes and that of the old value goes. -/
theorem handles_set_perm {u : Elements} {n : ℕ} {s s' : Slot TextRef Stored}
    (slot : t.slots.toList[n]? = some s) (slots : u.slots.toList = t.slots.toList.set n s')
    (key : s'.key = s.key) : (s.value.handles ++ u.handles).Perm (s'.value.handles ++ t.handles) := by
  obtain ⟨lt, at_n⟩ := List.getElem?_eq_some_iff.mp slot
  let rest := (t.slots.toList.eraseIdx n).flatMap Slot.handles
  have before : t.handles.Perm (s.key :: (s.value.handles ++ rest)) := by
    have perm := (List.getElem_cons_eraseIdx_perm lt).symm.flatMap_right Slot.handles
    rwa [at_n] at perm
  have after : u.handles.Perm (s.key :: (s'.value.handles ++ rest)) := by
    rw [handles, slots, ← key]
    exact (List.set_perm_cons_eraseIdx lt s').flatMap_right Slot.handles
  rw [List.perm_iff_count] at before after ⊢
  intro r
  have before_count := before r
  have after_count := after r
  simp only [List.count_append, List.count_cons] at before_count after_count ⊢
  omega

theorem setValue_slots {n : ℕ} {s : Slot TextRef Stored} (slot : t.slots.toList[n]? = some s)
    (v : Stored) :
    (t.setValue n v).slots.toList = t.slots.toList.set n { s with value := v } := by
  rw [← modify_eq_set (f := fun s => { s with value := v }) slot]
  exact Sequence.toList_modify _ _ _

theorem setValue_self {n : ℕ} {s : Slot TextRef Stored} (slot : t.slots.toList[n]? = some s) :
    t.setValue n s.value = t := by
  have items : t.slots.items.modify n (fun r => { r with value := s.value }) = t.slots.items := by
    apply Array.ext_getElem?
    intro i
    rw [Array.getElem?_modify]
    split
    · rename_i same
      rw [← same, ← Array.getElem?_toList]
      exact (congrArg _ slot).trans slot.symm
    · rfl
  rw [setValue, Sequence.modify, items]

theorem bury_slots {p n : ℕ} {s : Slot TextRef Stored} (slot : t.slots.toList[n]? = some s) :
    (t.bury p n).slots.toList = t.slots.toList.set n s.bury := by
  rw [← modify_eq_set slot]
  exact Sequence.toList_modify _ _ _

/-- A slot may be changed to one that is live or without a value. -/
theorem Blank.set {u : Elements} {n : ℕ} {s : Slot TextRef Stored} (blank : t.Blank)
    (slots : u.slots.toList = t.slots.toList.set n s)
    (fits : s.deleted = true → s.value.handles = []) : u.Blank := by
  intro r mem
  rw [slots] at mem
  rcases List.mem_or_eq_of_mem_set mem with old | rfl
  · exact blank r old
  · exact fits

theorem key_mem_handles {s : Slot TextRef Stored} (mem : s ∈ t.slots.toList) : s.key ∈ t.handles :=
  List.mem_flatMap.mpr ⟨s, mem, List.mem_cons_self⟩

theorem value_mem_handles {s : Slot TextRef Stored} (mem : s ∈ t.slots.toList) :
    s.value.handles ⊆ t.handles :=
  fun _ held => List.mem_flatMap.mpr ⟨s, mem, List.mem_cons_of_mem _ held⟩

/-- The entries of a table look the same with the same strings behind its handles. -/
theorem image_congr {α : Type} {f f' : TextRef → Bytes} {g : ArrayRef → α}
    (same : ∀ r ∈ t.handles, f' r = f r) :
    Dictionary.image f' (Value.map f' g) t.entries = Dictionary.image f (Value.map f g) t.entries := by
  refine List.map_congr_left fun e mem => ?_
  obtain ⟨s, live, rfl⟩ := List.mem_map.mp mem
  have slot := (List.mem_filter.mp live).1
  have value : s.value.map f' g = s.value.map f g :=
    Value.map_congr fun r held => same r (value_mem_handles slot held)
  rw [same s.key (key_mem_handles slot), value]

end Table

namespace Heap

open Table

variable {h h' : Heap} {t : Elements} {hs hs' : List TextRef} {d : Dictionary Bytes Content}
  {v : Stored} {key : TextRef} {bytes : Bytes} {n : ℕ} {s : Slot TextRef Stored}

theorem content_congr (same : ∀ r ∈ v.handles, h'.bytes r = h.bytes r) :
    h'.content v = h.content v := Value.map_congr same

/-- The entries of a table by content. -/
def shown (h : Heap) (t : Elements) : Dictionary Bytes Content :=
  Dictionary.image h.bytes h.content t.entries

/-- A table that shows a dictionary. -/
structure Shows (h : Heap) (t : Elements) (d : Dictionary Bytes Content) : Prop where
  sound : t.Sound h.bytes
  blank : t.Blank
  shown_eq : h.shown t = d

/-- A table that shows a dictionary, while some handles are out besides its own. -/
structure Stands (h : Heap) (t : Elements) (hs : List TextRef)
    (d : Dictionary Bytes Content) : Prop extends Shows h t d where
  held : h.Held (t.handles ++ hs)

/-- A table that stands on another heap, where the handles beside its own have the strings that they
had. -/
structure Moves (h h' : Heap) (t : Elements) (hs : List TextRef)
    (d : Dictionary Bytes Content) : Prop extends Stands h' t hs d where
  kept : ∀ r ∈ hs, h'.bytes r = h.bytes r

theorem Moves.trans {h'' : Heap} {u : Elements} {e : Dictionary Bytes Content}
    (first : Moves h h' t hs d) (later : Moves h' h'' u hs' e) (sub : hs' ⊆ hs) :
    Moves h h'' u hs' e :=
  ⟨later.toStands, fun r mem => (later.kept r mem).trans (first.kept r (sub mem))⟩

/-- A table shows the same on a heap where its handles have the strings that they had. -/
theorem Shows.congr (shows : Shows h t d) (kept : ∀ r ∈ t.handles, h'.bytes r = h.bytes r) :
    Shows h' t d := by
  have sound : t.Sound h'.bytes :=
    shows.sound.congr fun s mem => kept s.key (key_mem_handles mem)
  refine ⟨sound, shows.blank, ?_⟩
  rw [← shows.shown_eq]
  exact image_congr kept

theorem Shows.keeps (shows : Shows h t d) (keeps : Keeps h h' (t.handles ++ hs)) :
    Moves h h' t hs d :=
  ⟨⟨shows.congr fun r mem => keeps.kept r (List.mem_append_left _ mem), keeps.held⟩,
    fun r mem => keeps.kept r (List.mem_append_right _ mem)⟩

theorem Stands.perm (stands : Stands h t hs d) (perm : hs.Perm hs') : Stands h t hs' d :=
  ⟨stands.toShows, stands.held.perm (perm.append_left _)⟩

/-- Handles that a table takes and gives, while others are out. -/
theorem perm_exchange {given taken before after : List TextRef}
    (perm : (given ++ after).Perm (taken ++ before)) (hs : List TextRef) :
    (before ++ (taken ++ hs)).Perm (after ++ (given ++ hs)) := by
  rw [List.perm_iff_count] at perm ⊢
  intro r
  have count := perm r
  simp only [List.count_append] at count ⊢
  omega

theorem Stands.release (stands : Stands h t (v.handles ++ hs) d) :
    Moves h (h.release v) t hs d := by
  have held : h.Held (v.handles ++ (t.handles ++ hs)) :=
    stands.held.perm (perm_exchange List.perm_append_comm hs)
  exact stands.keeps held.release

/-- A value is changed where it stands: its handles come and those of the old value go. -/
theorem Stands.writeAt {f : Stored → Stored} {f' : Content → Content}
    (stands : Stands h t ((f s.value).handles ++ hs) d) (here : Live h.bytes t n s bytes)
    (same : ∀ v, h.content (f v) = f' (h.content v)) :
    Stands h (t.setValue n (f s.value)) (s.value.handles ++ hs) (d.change id bytes f') := by
  obtain ⟨⟨sound, blank, rfl⟩, held⟩ := stands
  have slots := setValue_slots here.slot_at (f s.value)
  have written : t.setValue n (f s.value) = t.writeAt n f := by rw [Table.writeAt, here.valueAt]
  have live : ¬ s.deleted = true := by simp [here.live]
  refine ⟨⟨sound.setValue n _, blank.set slots fun dead => absurd dead live, ?_⟩, ?_⟩
  · rw [shown, written, here.writeAt_entries sound]
    exact Dictionary.image_change same
  · exact held.perm (perm_exchange (handles_set_perm here.slot_at slots rfl) hs)

/-- Storing a value in a slot lets go of the one that was there. -/
theorem Stands.storeAt (stands : Stands h t (v.handles ++ hs) d)
    (here : Live h.bytes t n s bytes) :
    Moves h (h.storeAt t n v).1 (h.storeAt t n v).2 hs
      (d.change id bytes fun _ => h.content v) := by
  have old : (t.valueAt? n).getD default = s.value := by rw [here.valueAt, Option.getD_some]
  rw [Heap.storeAt, old]
  exact (stands.writeAt (f := fun _ => v) here fun _ => rfl).release

theorem Stands.bury {p : ℕ} (stands : Stands h t hs d) (mark : t.index[p]? = some (.slot n))
    (here : Live h.bytes t n s bytes) :
    Stands h (t.bury p n) (s.value.handles ++ hs) (d.erase id bytes) := by
  obtain ⟨⟨sound, blank, rfl⟩, held⟩ := stands
  have slots := bury_slots (p := p) here.slot_at
  refine ⟨⟨sound.bury mark, blank.set slots fun _ => rfl, ?_⟩, ?_⟩
  · rw [shown, here.bury_entries sound]
    exact Dictionary.image_erase
  · have perm : (s.value.handles ++ (t.bury p n).handles).Perm ([] ++ t.handles) :=
      handles_set_perm here.slot_at slots rfl
    exact held.perm (perm_exchange perm hs)

theorem Stands.delete (stands : Stands h t hs d) (bytes : Bytes) :
    Moves h (h.delete t bytes).1 (h.delete t bytes).2.1 hs (d.erase id bytes) := by
  rcases stands.sound.search bytes with ⟨p, n, s, probe, mark, here⟩ | ⟨p, probe, absent⟩
  · have deleted : h.delete t bytes = (h.release s.value, t.bury p n, true) := by
      simp only [Heap.delete, delete_found probe, here.valueAt]
    rw [deleted]
    exact (stands.bury mark here).release
  · have deleted : h.delete t bytes = (h, t, false) := by simp [Heap.delete, Table.delete, probe]
    have none : d.entry? id bytes = none := by
      rw [← stands.shown_eq, shown, Dictionary.entry?_image, entry_none absent, Option.map_none]
    rw [deleted, Dictionary.erase_absent none]
    exact ⟨stands, fun _ _ => rfl⟩

theorem Shows.clear (shows : Shows h t d) : Shows h t.clear [] := by
  refine ⟨shows.sound.clear, ?_, rfl⟩
  have none : t.clear.slots.toList = [] := rfl
  rw [Blank, none]
  exact nofun

theorem Stands.clear (stands : Stands h t hs d) : Moves h (h.discard t) t.clear hs [] :=
  stands.toShows.clear.keeps stands.held.discard

/-- Finding or inserting a key leaves the slot of the key in a table that stands. -/
theorem Stands.findOrInsert (stands : Stands h t hs d) (mem : key ∈ hs) :
    let q := h.findOrInsert t key
    Moves h q.1 q.2.table hs (d.visit id (h.bytes key) id) ∧
      ∃ s, Live q.1.bytes q.2.table q.2.slot s (h.bytes key) := by
  intro q
  obtain ⟨⟨sound, blank, rfl⟩, held⟩ := stands
  let p := t.findOrInsert h.bytes key
  have placed : Placed h.bytes t key p := sound.placed key
  obtain ⟨entries, s, here⟩ := sound.findOrInsert_entries key
  have shows : Shows h p.table ((h.shown t).visit id (h.bytes key) id) := by
    refine ⟨sound.visit_sound key, placed.blank blank, ?_⟩
    rw [shown, entries]
    exact Dictionary.image_visit (fun _ => rfl) rfl
  let h₁ := if p.created then h.retainText key else h
  have first : Keeps h h₁ ((if p.created then [key] else []) ++ (t.handles ++ hs)) := by
    by_cases created : p.created = true
    · simp only [h₁, created, if_true]
      exact held.retainText (List.mem_append_right _ mem)
    · simp only [h₁, created]
      exact ⟨held, fun _ _ => rfl⟩
  have perm := (placed.handles_perm blank).symm.append_right hs
  rw [List.append_assoc, List.append_assoc] at perm
  have later : Keeps h₁ q.1 (p.table.handles ++ hs) := Held.releaseTexts (first.held.perm perm)
  have keeps : Keeps h q.1 (p.table.handles ++ hs) :=
    first.trans later fun r held => perm.mem_iff.mpr (List.mem_append_right _ held)
  have slot_mem := key_mem_handles (List.mem_of_getElem? here.slot_at)
  have key_eq := (keeps.kept s.key (List.mem_append_left _ slot_mem)).trans here.key_eq
  exact ⟨shows.keeps keeps, s, here.slot_at, here.live, key_eq⟩

theorem Stands.insert (stands : Stands h t (v.handles ++ hs) d) (mem : key ∈ hs) :
    Moves h (h.insert t key v).1 (h.insert t key v).2 hs
      (d.visit id (h.bytes key) fun _ => h.content v) := by
  obtain ⟨found, s, here⟩ := stands.findOrInsert (List.mem_append_right _ mem)
  have value : (h.findOrInsert t key).1.content v = h.content v :=
    content_congr fun r held => found.kept r (List.mem_append_left _ held)
  have at_key : id (h.bytes key) = h.bytes key := rfl
  have stored := found.trans (found.storeAt here) (List.subset_append_right _ _)
  rwa [value, Dictionary.change_visit at_key] at stored

end Heap

end AwkCore
