import AwkCore.Proofs.Table.Kept

/-!
# Rebuilding and inserting

A rebuild puts the live slots, in their order, into an index that has room for one more. So an
insertion succeeds whether the index is rebuilt for it or not, and it only appends the new slot.
-/
namespace AwkCore.Table

variable {κ ν : Type} {view : κ → Bytes} {t u : Table κ ν}

def newSlot [Inhabited ν] (view : κ → Bytes) (key : κ) : Slot κ ν :=
  ⟨hashBytes (view key), key, default, false⟩

theorem liveSlots_length (h : Sound view t) : t.liveSlots.length = t.live := by
  rw [liveSlots, ← List.countP_eq_length_filter]
  exact h.live_eq

theorem Sound.reattach (h : Sound view t) {s : Slot κ ν} (room : t.live + t.deleted < t.limit)
    (live : s.deleted = false) (hash : s.hash = hashBytes (view s.key))
    (fresh : ∀ r ∈ t.liveSlots, view r.key ≠ view s.key) :
    ∃ p, t.reattach s = t.attach p s ∧ Sound view (t.reattach s) := by
  obtain ⟨p, hp⟩ := h.emptyPlace_isSome s.hash
  have eq : t.reattach s = t.attach p s := by simp [Table.reattach, hp]
  obtain ⟨reached, free⟩ := emptyPlaceFrom_eq_some hp
  exact ⟨p, eq, eq ▸ h.attach room live hash fresh reached (.inl free)⟩

/-- A sound table without deleted slots that has grown by a list of slots. -/
structure Grown (view : κ → Bytes) (u : Table κ ν) (l : List (Slot κ ν)) (t : Table κ ν) : Prop where
  sound : Sound view t
  liveSlots_eq : t.liveSlots = u.liveSlots ++ l
  deleted_eq : t.deleted = 0
  size_eq : t.size = u.size

theorem Grown.of_reattach (h : Sound view u) {l : List (Slot κ ν)} (none : u.deleted = 0)
    (room : u.live + l.length ≤ u.limit) (live : ∀ s ∈ l, s.deleted = false)
    (hash : ∀ s ∈ l, s.hash = hashBytes (view s.key))
    (distinct : ((u.liveSlots ++ l).map fun s => view s.key).Nodup) :
    Grown view u l (l.foldl Table.reattach u) := by
  induction l generalizing u with
  | nil => exact ⟨h, by simp, none, rfl⟩
  | cons s l ih =>
    simp only [List.length_cons, List.mem_cons, forall_eq_or_imp] at room live hash
    have fresh : ∀ r ∈ u.liveSlots, view r.key ≠ view s.key := by
      intro r hr he
      rw [List.map_append, List.nodup_append'] at distinct
      exact distinct.2.2 (List.mem_map_of_mem hr) (by simp [he])
    obtain ⟨p, eq, sound⟩ := h.reattach (by omega) live.1 hash.1 fresh
    have slots : (u.reattach s).liveSlots = u.liveSlots ++ [s] := by
      rw [eq]
      exact liveSlots_attach live.1
    have counts : (u.reattach s).live = u.live + 1 ∧ (u.reattach s).deleted = u.deleted ∧
        (u.reattach s).limit = u.limit := by
      rw [eq]
      exact ⟨rfl, rfl, rfl⟩
    have grown := ih sound (by omega) (by omega) live.2 hash.2
      (by simpa [slots, List.append_assoc] using distinct)
    have size : (u.reattach s).size = u.size := by
      rw [eq]
      exact Array.size_setIfInBounds
    exact ⟨grown.sound, by rw [List.foldl_cons, grown.liveSlots_eq, slots, List.append_assoc]; rfl,
      grown.deleted_eq, grown.size_eq.trans size⟩

/-- The index that a rebuild makes has room for another key. -/
theorem Sound.lt_limitFor_rebuiltSize (h : Sound view t) : t.live < limitFor t.rebuiltSize := by
  have size := h.size_ge
  have load := h.load_le
  have limit := h.limit_eq
  unfold rebuiltSize limitFor at *
  split <;> omega

theorem Sound.rebuiltSize_eq (h : Sound view t) : ∃ k, 3 ≤ k ∧ t.rebuiltSize = 2 ^ k := by
  obtain ⟨k, hk, hs⟩ := h.size_eq
  unfold rebuiltSize
  split
  · exact ⟨k + 1, by omega, by rw [hs, pow_succ']⟩
  · exact ⟨k, hk, hs⟩

/-- The new index takes the live slots, or some of them, in their order. -/
theorem Sound.grown (h : Sound view t) {l : List (Slot κ ν)} (sub : l.Sublist t.liveSlots) :
    Grown view (Table.ofSize t.rebuiltSize (Sequence.withCapacity t.live)) l
      (l.foldl Table.reattach (Table.ofSize t.rebuiltSize (Sequence.withCapacity t.live))) := by
  obtain ⟨k, hk, hs⟩ := h.rebuiltSize_eq
  have live : ∀ s ∈ l, s.deleted = false := fun s hs => by
    simpa using (List.mem_filter.mp (sub.subset hs)).2
  have hash : ∀ s ∈ l, s.hash = hashBytes (view s.key) := fun s hs =>
    h.hash_eq s (List.mem_filter.mp (sub.subset hs)).1
  have room : l.length ≤ limitFor t.rebuiltSize := by
    have length := sub.length_le
    rw [liveSlots_length h] at length
    exact length.trans h.lt_limitFor_rebuiltSize.le
  apply Grown.of_reattach (hs ▸ Sound.ofSize hk rfl) rfl _ live hash
  · simpa [liveSlots, Table.ofSize] using h.distinct.sublist (sub.map _)
  · simpa [Table.ofSize] using room

/-- A rebuild keeps the live slots in their order and drops the others. -/
theorem Sound.rebuild (h : Sound view t) :
    Grown view (Table.ofSize t.rebuiltSize (Sequence.withCapacity t.live)) t.liveSlots t.rebuild :=
  h.grown (List.Sublist.refl _)

theorem Sound.rebuild_sound (h : Sound view t) : Sound view t.rebuild := h.rebuild.sound

theorem Sound.rebuild_liveSlots (h : Sound view t) : t.rebuild.liveSlots = t.liveSlots := by
  simpa [liveSlots, Table.ofSize] using h.rebuild.liveSlots_eq

theorem Sound.rebuild_size (h : Sound view t) : t.rebuild.size = t.rebuiltSize := by
  simpa [size, Table.ofSize] using h.rebuild.size_eq

theorem Sound.rebuild_room (h : Sound view t) :
    t.rebuild.live + t.rebuild.deleted < t.rebuild.limit := by
  have sound := h.rebuild_sound
  rw [h.rebuild.deleted_eq, ← liveSlots_length sound, h.rebuild_liveSlots, liveSlots_length h,
    sound.limit_eq, h.rebuild_size]
  exact h.lt_limitFor_rebuiltSize

variable [Inhabited ν]

/-- The slot of a key that was found, in the table as it is. -/
structure Found (view : κ → Bytes) (t : Table κ ν) (key : κ) (q : Placement κ ν) : Prop where
  table_eq : q.table = t
  not_created : q.created = false
  live : ∃ s, Live view t q.slot s (view key)

/-- The slot of a key that was new, in a sound table that has grown by it. -/
structure Created (view : κ → Bytes) (t : Table κ ν) (key : κ) (q : Placement κ ν) : Prop where
  sound : Sound view q.table
  created : q.created = true
  liveSlots_eq : q.table.liveSlots = t.liveSlots ++ [newSlot view key]
  live : Live view q.table q.slot (newSlot view key) (view key)
  fresh : ∀ s ∈ t.liveSlots, view s.key ≠ view key

theorem Sound.placeInRebuilt (h : Sound view t) {key : κ}
    (fresh : ∀ s ∈ t.liveSlots, view s.key ≠ view key) :
    Created view t key (t.placeInRebuilt (newSlot view key)) := by
  have sound := h.rebuild_sound
  obtain ⟨p, eq, after⟩ := sound.reattach (s := newSlot view key) h.rebuild_room rfl rfl
    (by rwa [h.rebuild_liveSlots])
  constructor
  case sound => exact after
  case created => rfl
  case liveSlots_eq =>
    show (t.rebuild.reattach _).liveSlots = _
    rw [eq, liveSlots_attach rfl, h.rebuild_liveSlots]
  case live =>
    refine ⟨?_, rfl, rfl⟩
    show (t.rebuild.reattach _).slots.toList[t.rebuild.slots.size]? = _
    rw [eq]
    exact slot_attach
  case fresh => exact fresh

theorem findOrInsert_found {key : κ} {p n : ℕ} (found : t.probe view (view key) = .found p n) :
    t.findOrInsert view key = ⟨t, n, false, []⟩ := by
  simp [Table.findOrInsert, found]

theorem findOrInsert_vacant {key : κ} {p : ℕ} (vacant : t.probe view (view key) = .vacant p) :
    t.findOrInsert view key =
      if t.live + t.deleted < t.limit then
        ⟨t.attach p (newSlot view key), t.slots.size, true, []⟩
      else t.placeInRebuilt (newSlot view key) := by
  simp [Table.findOrInsert, vacant, newSlot]

/-- An insertion finds the key or makes a slot for it, after a rebuild if there is no room. -/
theorem Sound.findOrInsert (h : Sound view t) (key : κ) :
    Found view t key (t.findOrInsert view key) ∨ Created view t key (t.findOrInsert view key) := by
  cases probe : t.probe view (view key) with
  | found p n =>
    rw [findOrInsert_found probe]
    exact .inl ⟨rfl, rfl, (h.probe_found probe).2⟩
  | exhausted => exact absurd probe (h.probe_ne_exhausted _)
  | vacant p =>
    right
    obtain ⟨reached, free, fresh⟩ := h.probe_vacant probe
    rw [findOrInsert_vacant probe]
    split
    · rename_i room
      exact ⟨h.attach room rfl rfl fresh reached free, rfl, liveSlots_attach rfl,
        ⟨slot_attach, rfl, rfl⟩, fresh⟩
    · exact h.placeInRebuilt fresh

end AwkCore.Table
