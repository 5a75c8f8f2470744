import Mathlib.Data.List.Nodup
import AwkCore.Proofs.Table.Search

/-!
# Sound tables

`Sound` collects what every operation on a table keeps: how its size, limit and counters hang
together, and that the walk of each live slot's hash reaches the one place that names it. A sound
table has an empty place, so no search in it is exhausted.
-/
namespace AwkCore

def Mark.isSlot : Mark → Bool
  | slot _ => true
  | _ => false

namespace Table

variable {κ ν : Type} {view : κ → Bytes} {t : Table κ ν}

/-- What holds of every table that the operations build. -/
structure Sound (view : κ → Bytes) (t : Table κ ν) : Prop where
  size_eq : ∃ k, 3 ≤ k ∧ t.size = 2 ^ k
  limit_eq : t.limit = limitFor t.size
  slots_length : t.slots.toList.length = t.live + t.deleted
  load_le : t.live + t.deleted ≤ t.limit
  live_eq : t.slots.toList.countP (fun s => !s.deleted) = t.live
  hash_eq : ∀ s ∈ t.slots.toList, s.hash = hashBytes (view s.key)
  distinct : (t.liveSlots.map fun s => view s.key).Nodup
  named : ∀ (p n : ℕ), t.index[p]? = some (.slot n) →
    ∃ s, t.slots.toList[n]? = some s ∧ s.deleted = false
  named_once : ∀ (p q n : ℕ), t.index[p]? = some (.slot n) → t.index[q]? = some (.slot n) → p = q
  reached : ∀ (n : ℕ) (s : Slot κ ν), t.slots.toList[n]? = some s → s.deleted = false →
    ∃ p, t.index[p]? = some (.slot n) ∧ Reaches t.index (Walk.start t.size s.hash) p
  names_count : t.index.countP Mark.isSlot = t.live
  tombstones_le : t.index.countP (· == .deleted) ≤ t.deleted

theorem countP_set_add {α : Type} {p : α → Bool} {l : List α} {i : ℕ} {a : α} (b : α)
    (h : l[i]? = some a) :
    (l.set i b).countP p + (if p a then 1 else 0) = l.countP p + if p b then 1 else 0 := by
  obtain ⟨hi, rfl⟩ := List.getElem?_eq_some_iff.mp h
  have pos : (if p l[i] then 1 else 0) ≤ l.countP p := by
    split
    · exact List.countP_pos_iff.mpr ⟨_, List.getElem_mem hi, by assumption⟩
    · exact Nat.zero_le _
  rw [List.countP_set hi]
  omega

/-- Every place of an index is empty, names a slot or remembers a deletion. -/
theorem countP_marks (index : Array Mark) :
    index.countP (· == .empty) + index.countP Mark.isSlot + index.countP (· == .deleted) =
      index.size := by
  obtain ⟨marks⟩ := index
  simp only [List.countP_toArray, List.size_toArray]
  induction marks with
  | nil => rfl
  | cons m marks ih =>
    cases m <;> simp [List.countP_cons, Mark.isSlot] <;> omega

theorem limitFor_lt {size : ℕ} (h : 0 < size) : limitFor size < size := by
  unfold limitFor
  omega

theorem Sound.size_ge (h : Sound view t) : 8 ≤ t.size := by
  obtain ⟨k, hk, hs⟩ := h.size_eq
  calc 8 = 2 ^ 3 := rfl
    _ ≤ 2 ^ k := Nat.pow_le_pow_right (by decide) hk
    _ = t.size := hs.symm

/-- More places are empty than the limit leaves for keys. -/
theorem Sound.empty_count (h : Sound view t) :
    t.size - t.limit ≤ t.index.countP (· == .empty) := by
  have marks : _ = t.size := countP_marks t.index
  have names := h.names_count
  have tombs := h.tombstones_le
  have load := h.load_le
  omega

theorem Sound.some_empty (h : Sound view t) : Mark.empty ∈ t.index := by
  have count := h.empty_count
  have room : limitFor t.size < t.size := limitFor_lt (by have := h.size_ge; omega)
  rw [← h.limit_eq] at room
  obtain ⟨m, hm, he⟩ := Array.countP_pos_iff.mp (show 0 < t.index.countP (· == .empty) by omega)
  exact eq_of_beq he ▸ hm

theorem Sound.ends (h : Sound view t) (hash : UInt32) :
    Ends t.index (Walk.start t.size hash) t.reach := by
  obtain ⟨k, _, hs⟩ := h.size_eq
  exact ends_of_empty hs h.some_empty hash

theorem Sound.probe_ne_exhausted (h : Sound view t) (key : Bytes) :
    t.probe view key ≠ .exhausted :=
  probeFrom_ne_exhausted (Walk.start_place_lt _ (by have := h.size_ge; omega)) (h.ends _)

theorem Sound.emptyPlace_isSome (h : Sound view t) (hash : UInt32) :
    ∃ p, t.emptyPlace? hash = some p := emptyPlaceFrom_isSome (h.ends hash)

/-- A live slot with a key, and its place. -/
structure Live (view : κ → Bytes) (t : Table κ ν) (n : ℕ) (s : Slot κ ν) (key : Bytes) : Prop where
  slot_at : t.slots.toList[n]? = some s
  live : s.deleted = false
  key_eq : view s.key = key

theorem Live.mem {n : ℕ} {s : Slot κ ν} {key : Bytes} (h : Live view t n s key) :
    s ∈ t.liveSlots := List.mem_filter.mpr ⟨List.mem_of_getElem? h.slot_at, by simp [h.live]⟩

theorem live_of_mem {s : Slot κ ν} (hs : s ∈ t.liveSlots) : ∃ n, Live view t n s (view s.key) := by
  obtain ⟨mem, live⟩ := List.mem_filter.mp hs
  obtain ⟨n, hn⟩ := List.mem_iff_getElem?.mp mem
  exact ⟨n, hn, by simpa using live, rfl⟩

theorem Live.unique {key : Bytes} {m n : ℕ} {r s : Slot κ ν} (h : Sound view t)
    (hr : Live view t m r key) (hs : Live view t n s key) : m = n := by
  have pairs : t.slots.toList.Pairwise fun r s =>
      (!r.deleted) = true → (!s.deleted) = true → view r.key ≠ view s.key := by
    simpa only [liveSlots, List.Nodup, List.pairwise_map, List.pairwise_filter] using h.distinct
  rw [List.pairwise_iff_getElem] at pairs
  obtain ⟨hr, liveR, keyR⟩ := hr
  obtain ⟨hs, liveS, keyS⟩ := hs
  obtain ⟨hm, rfl⟩ := List.getElem?_eq_some_iff.mp hr
  obtain ⟨hn, rfl⟩ := List.getElem?_eq_some_iff.mp hs
  have key := keyR.trans keyS.symm
  rcases Nat.lt_trichotomy m n with lt | eq | gt
  · exact absurd key (pairs m n hm hn lt (by simp [liveR]) (by simp [liveS]))
  · exact eq
  · exact absurd key.symm (pairs n m hn hm gt (by simp [liveS]) (by simp [liveR]))

/-- A search that finds something has found the live slot of its key. -/
theorem Sound.probe_found (h : Sound view t) {key : Bytes} {p n : ℕ}
    (found : t.probe view key = .found p n) :
    t.index[p]? = some (.slot n) ∧ ∃ s, Live view t n s key := by
  obtain ⟨mark, here⟩ := probeFrom_found found
  obtain ⟨s, hs, live⟩ := h.named p n mark
  rw [Sequence.get?_eq, hs] at here
  simp only [Option.any_some, Bool.and_eq_true, beq_iff_eq] at here
  exact ⟨mark, s, hs, live, here.2⟩

/-- A search that finds nothing shows that no live slot has the key, and a place to put it. -/
theorem Sound.probe_vacant (h : Sound view t) {key : Bytes} {p : ℕ}
    (vacant : t.probe view key = .vacant p) :
    Reaches t.index (Walk.start t.size (hashBytes key)) p ∧ Free t.index p ∧
      ∀ s ∈ t.liveSlots, view s.key ≠ key := by
  have place := probeFrom_vacant_place vacant
  simp only [reduceCtorEq, true_and, false_or] at place
  refine ⟨place.1, place.2, ?_⟩
  intro s hs he
  obtain ⟨n, hn, live, _⟩ : ∃ n, Live view t n s (view s.key) := live_of_mem hs
  obtain ⟨q, mark, reached⟩ := h.reached n s hn live
  have hash : s.hash = hashBytes key := by rw [h.hash_eq s (List.mem_of_getElem? hn), he]
  rw [hash] at reached
  apply probeFrom_vacant_slot vacant reached mark
  simp [Sequence.get?_eq, hn, hash, he]

end Table

end AwkCore
