import AwkCore.Proofs.Table.Dictionary

/-!
# The balance of a table

What a reader of a table can rely on, whatever has been done with it: its size and limit, how its
counters add up to its slots, which slots its index names, and how many places of the index are left
empty. `Sound` holds besides what the operations need to keep all this.
-/
namespace AwkCore.Table

variable {κ ν : Type} {view : κ → Bytes} {t : Table κ ν}

/-- How the size, the counters, the slots and the index of a table hang together. -/
structure Balanced (view : κ → Bytes) (t : Table κ ν) : Prop where
  size_eq : ∃ k, t.size = 2 ^ k
  size_ge : 8 ≤ t.size
  limit_eq : t.limit = 8 * t.size / 10
  slots_size : t.live + t.deleted = t.slots.size
  load_le : t.live + t.deleted ≤ t.limit
  live_eq : t.live = t.liveSlots.length
  live_named : ∀ (n : ℕ) (s : Slot κ ν), t.slots.get? n = some s → s.deleted = false →
    ∃! p : ℕ, t.index[p]? = some (.slot n)
  deleted_unnamed : ∀ (n : ℕ) (s : Slot κ ν), t.slots.get? n = some s → s.deleted = true →
    ∀ p : ℕ, t.index[p]? ≠ some (.slot n)
  tombstones_le : t.index.countP (· == .deleted) ≤ t.deleted
  distinct : ∀ (m n : ℕ) (r s : Slot κ ν), t.slots.get? m = some r → t.slots.get? n = some s →
    r.deleted = false → s.deleted = false → view r.key = view s.key → m = n
  empty_ge : t.size - t.limit ≤ t.index.countP (· == .empty)

theorem Sound.live_named (h : Sound view t) {n : ℕ} {s : Slot κ ν}
    (slot : t.slots.get? n = some s) (live : s.deleted = false) :
    ∃! p : ℕ, t.index[p]? = some (.slot n) := by
  rw [Sequence.get?_eq] at slot
  obtain ⟨p, mark, _⟩ := h.reached n s slot live
  exact ⟨p, mark, fun q named => h.named_once q p n named mark⟩

theorem Sound.deleted_unnamed (h : Sound view t) {n : ℕ} {s : Slot κ ν}
    (slot : t.slots.get? n = some s) (dead : s.deleted = true) (p : ℕ) :
    t.index[p]? ≠ some (.slot n) := by
  intro mark
  obtain ⟨r, at_n, live⟩ := h.named p n mark
  rw [Sequence.get?_eq] at slot
  obtain rfl : s = r := Option.some.inj (slot.symm.trans at_n)
  rw [dead] at live
  contradiction

theorem Sound.balanced (h : Sound view t) : Balanced view t := by
  constructor
  case size_eq =>
    obtain ⟨k, _, size⟩ := h.size_eq
    exact ⟨k, size⟩
  case size_ge => exact h.size_ge
  case limit_eq => rw [h.limit_eq, limitFor, Nat.mul_comm]
  case slots_size => rw [Sequence.size_eq, h.slots_length]
  case load_le => exact h.load_le
  case live_eq => exact (liveSlots_length h).symm
  case live_named => exact fun n s slot live => h.live_named slot live
  case deleted_unnamed => exact fun n s slot dead => h.deleted_unnamed slot dead
  case tombstones_le => exact h.tombstones_le
  case distinct =>
    intro m n r s at_m at_n live_r live_s key
    rw [Sequence.get?_eq] at at_m at_n
    have left : Live view t m r (view s.key) := ⟨at_m, live_r, key⟩
    have right : Live view t n s (view s.key) := ⟨at_n, live_s, rfl⟩
    exact left.unique h right
  case empty_ge => exact h.empty_count

/-- Every run of actions on a new table leaves a balanced table. -/
theorem run_new_balanced [Inhabited ν] (view : κ → Bytes) (actions : List (Action κ ν)) :
    Balanced view (run view new actions).1 := by
  have start : Sound view (new : Table κ ν) := Sound.new
  obtain ⟨sound, _⟩ := start.run actions
  exact sound.balanced

end AwkCore.Table
