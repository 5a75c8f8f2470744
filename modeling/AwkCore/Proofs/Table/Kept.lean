import AwkCore.Proofs.Table.Sound

/-!
# Operations keep tables sound

Each operation on a table is shown to keep it sound, together with what it does to the live slots:
an insertion appends to them, a write changes one in place, a deletion takes one out, and a rebuild
leaves them as they are.
-/
namespace AwkCore

variable {κ ν : Type}

/-- What is left of a slot when it is deleted. -/
def Slot.bury [Inhabited ν] (s : Slot κ ν) : Slot κ ν := { s with deleted := true, value := default }

namespace Table

variable {view : κ → Bytes} {t : Table κ ν}

section Modify

variable {α β : Type} {l : List α} {n : ℕ} {f : α → α}

theorem forall_mem_modify {P : α → Prop} (h : ∀ a ∈ l, P a) (hf : ∀ a ∈ l, P (f a)) :
    ∀ a ∈ l.modify n f, P a := by
  intro a ha
  obtain ⟨i, hi⟩ := List.mem_iff_getElem?.mp ha
  rw [List.getElem?_modify] at hi
  obtain ⟨b, hb, he⟩ := Option.map_eq_some_iff.mp hi
  have mem : b ∈ l := List.mem_of_getElem? hb
  split at he
  · exact he ▸ hf b mem
  · exact he ▸ h b mem

/-- A change of the one element with a property is a change of all elements with it. -/
theorem modify_eq_map {q : α → Bool} (only : ∀ (i : ℕ) (a : α), l[i]? = some a → (q a = true ↔ n = i)) :
    l.modify n f = l.map fun a => if q a then f a else a := by
  apply List.ext_getElem?
  intro i
  rw [List.getElem?_modify, List.getElem?_map]
  cases hi : l[i]? with
  | none => rfl
  | some a => simp [only i a hi]

theorem map_filter_modify {p : α → Bool} {g : α → β} (hp : ∀ a, p (f a) = p a)
    (hg : ∀ a, g (f a) = g a) : ((l.modify n f).filter p).map g = (l.filter p).map g := by
  induction l generalizing n with
  | nil => simp
  | cons a l ih =>
    cases n with
    | zero => by_cases h : p a <;> simp [hp, hg, h]
    | succ n => by_cases h : p a <;> simp [ih, h]

theorem filter_modify_sublist {p : α → Bool} (hp : ∀ a, p (f a) = false) :
    ((l.modify n f).filter p).Sublist (l.filter p) := by
  induction l generalizing n with
  | nil => simp
  | cons a l ih =>
    cases n with
    | zero => simpa [hp] using (List.sublist_cons_self a l).filter p
    | succ n => by_cases h : p a <;> simp [ih, h]

theorem getElem?_concat {a b : α} {i : ℕ} (h : (l ++ [a])[i]? = some b) :
    l[i]? = some b ∨ (i = l.length ∧ b = a) := by
  rcases Nat.lt_or_ge i l.length with lt | ge
  · exact .inl (by rwa [List.getElem?_append_left lt] at h)
  · rw [List.getElem?_append_right ge, List.getElem?_singleton] at h
    split at h
    · exact .inr ⟨by omega, (Option.some.inj h).symm⟩
    · simp at h

theorem modify_eq_set {a : α} (h : l[n]? = some a) : l.modify n f = l.set n (f a) := by
  simp [List.modify_eq_set_getElem?, h]

end Modify

theorem Free.lt {index : Array Mark} {p : ℕ} (h : Free index p) : p < index.size := by
  rcases h with h | h <;> exact (Array.getElem?_eq_some_iff.mp h).1

theorem Free.not_slot {index : Array Mark} {p n : ℕ} (h : Free index p) :
    index[p]? ≠ some (.slot n) := by
  rcases h with h | h <;> simp [h]

theorem mark_set {index : Array Mark} {p q : ℕ} {m : Mark} (hp : p < index.size) :
    (index.setIfInBounds p m)[q]? = if p = q then some m else index[q]? := by
  simp [Array.getElem?_setIfInBounds, hp]

/-- A walk still reaches its places when a mark other than the empty one is put into the index. -/
theorem Reaches.set {index : Array Mark} {w : Walk} {p q : ℕ} {m : Mark} (h : Reaches index w q)
    (hp : p < index.size) (hm : m ≠ .empty) : Reaches (index.setIfInBounds p m) w q := by
  refine h.mono (by simp) fun r full => ?_
  rw [mark_set hp]
  split
  · simp [hm]
  · exact full

theorem countP_set_mark {index : Array Mark} {p : ℕ} {a : Mark} (f : Mark → Bool) (m : Mark)
    (h : index[p]? = some a) :
    (index.setIfInBounds p m).countP f + (if f a then 1 else 0) =
      index.countP f + if f m then 1 else 0 := by
  rw [← Array.countP_toList, ← Array.countP_toList, Array.toList_setIfInBounds]
  exact countP_set_add m (by simpa using h)

theorem liveSlots_attach {p : ℕ} {s : Slot κ ν} (live : s.deleted = false) :
    (t.attach p s).liveSlots = t.liveSlots ++ [s] := by
  simp [liveSlots, attach, List.filter_append, live]

theorem slot_attach {p : ℕ} {s : Slot κ ν} :
    (t.attach p s).slots.toList[t.slots.size]? = some s := by
  simp [attach, Sequence.size_eq]

/-- A slot with a new key may be appended where its walk reaches a free place. -/
theorem Sound.attach (h : Sound view t) {p : ℕ} {s : Slot κ ν}
    (room : t.live + t.deleted < t.limit) (live : s.deleted = false)
    (hash : s.hash = hashBytes (view s.key))
    (fresh : ∀ r ∈ t.liveSlots, view r.key ≠ view s.key)
    (reached : Reaches t.index (Walk.start t.size s.hash) p) (free : Free t.index p) :
    Sound view (t.attach p s) := by
  let n₀ := t.slots.toList.length
  have slots : (t.attach p s).slots.toList = t.slots.toList ++ [s] := Sequence.toList_append _ _
  have size : (t.attach p s).size = t.size := Array.size_setIfInBounds
  have live_succ : (t.attach p s).live = t.live + 1 := rfl
  have deleted : (t.attach p s).deleted = t.deleted := rfl
  have limit : (t.attach p s).limit = t.limit := rfl
  have mark (q : ℕ) : (t.attach p s).index[q]? =
      if p = q then some (.slot n₀) else t.index[q]? := mark_set free.lt
  have old {q n : ℕ} (hq : t.index[q]? = some (.slot n)) : n < n₀ := by
    obtain ⟨r, hr, _⟩ := h.named q n hq
    exact (List.getElem?_eq_some_iff.mp hr).1
  constructor
  case size_eq => rw [size]; exact h.size_eq
  case limit_eq => rw [size]; exact h.limit_eq
  case slots_length =>
    have := h.slots_length
    simp only [slots, List.length_append, List.length_singleton]
    omega
  case load_le => omega
  case live_eq => simp [slots, List.countP_append, live, h.live_eq, live_succ]
  case hash_eq =>
    intro r hr
    rw [slots, List.mem_append, List.mem_singleton] at hr
    rcases hr with hr | rfl
    · exact h.hash_eq r hr
    · exact hash
  case distinct =>
    rw [liveSlots_attach live, List.map_append, List.nodup_append']
    refine ⟨h.distinct, by simp, ?_⟩
    simpa [List.disjoint_singleton] using fresh
  case named =>
    intro q n hq
    rw [mark] at hq
    split at hq
    · simp only [Option.some.injEq, Mark.slot.injEq] at hq
      exact ⟨s, by simp [slots, ← hq, n₀], live⟩
    · obtain ⟨r, hr, hl⟩ := h.named q n hq
      exact ⟨r, by rw [slots, List.getElem?_append_left (old hq), hr], hl⟩
  case named_once =>
    intro q r n hq hr
    rw [mark] at hq hr
    split at hq <;> split at hr
    · omega
    · simp only [Option.some.injEq, Mark.slot.injEq] at hq
      exact absurd (old hr) (by omega)
    · simp only [Option.some.injEq, Mark.slot.injEq] at hr
      exact absurd (old hq) (by omega)
    · exact h.named_once q r n hq hr
  case reached =>
    intro n r hr hl
    rw [slots] at hr
    -- Walks to the slots that were there pass the new one as they passed the free place.
    rcases getElem?_concat hr with hr | ⟨rfl, rfl⟩
    · obtain ⟨q, hq, rq⟩ := h.reached n r hr hl
      refine ⟨q, ?_, by rw [size]; exact rq.set free.lt (by simp)⟩
      rw [mark, if_neg (by rintro rfl; exact free.not_slot hq), hq]
    · exact ⟨p, by simp [mark, n₀], by rw [size]; exact reached.set free.lt (by simp)⟩
  case names_count =>
    have before := h.names_count
    obtain ⟨m, hm, not_slot⟩ : ∃ m, t.index[p]? = some m ∧ m.isSlot = false := by
      rcases free with hp | hp <;> exact ⟨_, hp, rfl⟩
    have after : (t.attach p s).index.countP Mark.isSlot + _ = _ :=
      countP_set_mark Mark.isSlot (.slot n₀) hm
    rw [not_slot] at after
    simpa [Mark.isSlot, before, live_succ] using after
  case tombstones_le =>
    obtain ⟨m, hm⟩ : ∃ m, t.index[p]? = some m := ⟨_, Array.getElem?_eq_getElem free.lt⟩
    have after := countP_set_mark (· == .deleted) (.slot n₀) hm
    exact (Nat.le_add_right _ _).trans (after.trans_le h.tombstones_le)

/-- Without entries a table is sound whatever its index size, as long as it is a proper one. -/
theorem Sound.ofSize {k : ℕ} (hk : 3 ≤ k) {slots : Sequence (Slot κ ν)} (none : slots.toList = []) :
    Sound view (ofSize (2 ^ k) slots) := by
  have empty : ∀ (p : ℕ) (m : Mark),
      (Table.ofSize (2 ^ k) slots).index[p]? = some m → m = .empty := by
    intro p m hm
    simp only [Table.ofSize, Array.getElem?_replicate] at hm
    split at hm <;> simp_all
  constructor
  case size_eq => exact ⟨k, hk, by simp [size, Table.ofSize]⟩
  case limit_eq => simp [size, Table.ofSize]
  case slots_length => simp [Table.ofSize, none]
  case load_le => simp [Table.ofSize]
  case live_eq => simp [Table.ofSize, none]
  case hash_eq => simp [Table.ofSize, none]
  case distinct => simp [liveSlots, Table.ofSize, none]
  case named => exact fun p n hp => by simpa using empty p _ hp
  case named_once => exact fun p _ n hp _ => by simpa using empty p _ hp
  case reached => simp [Table.ofSize, none]
  case names_count => simp [Table.ofSize, Mark.isSlot]
  case tombstones_le => simp [Table.ofSize]

theorem Sound.new : Sound view (new : Table κ ν) := Sound.ofSize (k := 3) le_rfl rfl

theorem Sound.clear (h : Sound view t) : Sound view t.clear := by
  obtain ⟨k, hk, hs⟩ := h.size_eq
  rw [Table.clear, hs]
  exact Sound.ofSize hk rfl

/-- Writing a value keeps the keys and marks as they are. -/
theorem Sound.setValue (h : Sound view t) (n : ℕ) (v : ν) : Sound view (t.setValue n v) := by
  have slots : (t.setValue n v).slots.toList = t.slots.toList.modify n fun s => { s with value := v } :=
    Sequence.toList_modify _ _ _
  have live (g : Slot κ ν → Bytes) (hg : ∀ s : Slot κ ν, g { s with value := v } = g s) :
      (t.setValue n v).liveSlots.map g = t.liveSlots.map g := by
    rw [liveSlots, slots]
    exact map_filter_modify (fun _ => rfl) hg
  have at_place {i : ℕ} {s : Slot κ ν} (hs : (t.setValue n v).slots.toList[i]? = some s) :
      ∃ r, t.slots.toList[i]? = some r ∧ s.hash = r.hash ∧ s.deleted = r.deleted := by
    rw [slots, List.getElem?_modify] at hs
    obtain ⟨r, hr, rfl⟩ := Option.map_eq_some_iff.mp hs
    exact ⟨r, hr, by split <;> rfl, by split <;> rfl⟩
  constructor
  case size_eq => exact h.size_eq
  case limit_eq => exact h.limit_eq
  case slots_length => rw [slots, List.length_modify]; exact h.slots_length
  case load_le => exact h.load_le
  case live_eq =>
    have lengths := congrArg List.length (live (fun _ => []) fun _ => rfl)
    simp only [List.length_map, liveSlots, ← List.countP_eq_length_filter] at lengths
    exact lengths.trans h.live_eq
  case hash_eq =>
    rw [slots]
    exact forall_mem_modify h.hash_eq fun s hs => h.hash_eq s hs
  case distinct => rw [live (fun s => view s.key) fun _ => rfl]; exact h.distinct
  case named =>
    intro p m hp
    obtain ⟨r, hr, hl⟩ := h.named p m hp
    exact ⟨if n = m then { r with value := v } else r, by rw [slots, List.getElem?_modify, hr]; rfl,
      by split <;> exact hl⟩
  case named_once => exact h.named_once
  case reached =>
    intro m s hs hl
    obtain ⟨r, hr, hash, del⟩ := at_place hs
    obtain ⟨p, mark, reached⟩ := h.reached m r hr (del ▸ hl)
    exact ⟨p, mark, hash ▸ reached⟩
  case names_count => exact h.names_count
  case tombstones_le => exact h.tombstones_le

/-- The table after the deletion of the slot that a place of the index names. -/
def bury [Inhabited ν] (t : Table κ ν) (p n : ℕ) : Table κ ν :=
  { t with
    index := t.index.setIfInBounds p .deleted
    live := t.live - 1
    deleted := t.deleted + 1
    slots := t.slots.modify n Slot.bury }

theorem delete_found [Inhabited ν] {key : Bytes} {p n : ℕ}
    (found : t.probe view key = .found p n) :
    t.delete view key = (t.bury p n, t.valueAt? n) := by
  simp only [delete, found]
  rfl

theorem Sound.bury [Inhabited ν] (h : Sound view t) {p n : ℕ} (mark : t.index[p]? = some (.slot n)) :
    Sound view (t.bury p n) := by
  obtain ⟨s, hs, live⟩ := h.named p n mark
  have hp : p < t.index.size := (Array.getElem?_eq_some_iff.mp mark).1
  have slots : (t.bury p n).slots.toList = t.slots.toList.modify n Slot.bury :=
    Sequence.toList_modify _ _ _
  have size : (t.bury p n).size = t.size := Array.size_setIfInBounds
  have marks (q : ℕ) : (t.bury p n).index[q]? =
      if p = q then some .deleted else t.index[q]? := mark_set hp
  have slot_at {i : ℕ} (ne : n ≠ i) : (t.bury p n).slots.toList[i]? = t.slots.toList[i]? := by
    simp [slots, ne]
  have positive : 0 < t.live := by
    rw [← h.live_eq]
    exact List.countP_pos_iff.mpr ⟨s, List.mem_of_getElem? hs, by simp [live]⟩
  have live_pred : (t.bury p n).live = t.live - 1 := rfl
  have deleted_succ : (t.bury p n).deleted = t.deleted + 1 := rfl
  -- A place that still names a slot after the deletion names another one.
  have other {q m : ℕ} (hq : (t.bury p n).index[q]? = some (.slot m)) :
      t.index[q]? = some (.slot m) ∧ n ≠ m := by
    rw [marks] at hq
    split at hq
    · simp at hq
    · rename_i ne
      refine ⟨hq, ?_⟩
      rintro rfl
      exact ne (h.named_once p q n mark hq)
  constructor
  case size_eq => rw [size]; exact h.size_eq
  case limit_eq => rw [size]; exact h.limit_eq
  case slots_length =>
    have := h.slots_length
    rw [slots, List.length_modify]
    omega
  case load_le =>
    have load : t.live + t.deleted ≤ (t.bury p n).limit := h.load_le
    omega
  case live_eq =>
    have count := countP_set_add (p := fun s : Slot κ ν => !s.deleted) (Slot.bury s) hs
    simp only [live, Slot.bury, Bool.not_false, Bool.not_true, if_true, Bool.false_eq_true,
      if_false, h.live_eq] at count
    rw [slots, modify_eq_set hs, live_pred]
    exact Nat.eq_sub_of_add_eq count
  case hash_eq =>
    rw [slots]
    exact forall_mem_modify h.hash_eq fun s hs => h.hash_eq s hs
  case distinct =>
    refine h.distinct.sublist ?_
    rw [liveSlots, slots]
    exact (filter_modify_sublist fun s => by simp [Slot.bury]).map _
  case named =>
    intro q m hq
    obtain ⟨hq, ne⟩ := other hq
    rw [slot_at ne]
    exact h.named q m hq
  case named_once => exact fun q r m hq hr => h.named_once q r m (other hq).1 (other hr).1
  case reached =>
    intro m r hr hl
    have ne : n ≠ m := by
      rintro rfl
      rw [slots, List.getElem?_modify, hs] at hr
      simp only [if_true, Option.map_eq_map, Option.map_some, Option.some.injEq] at hr
      simp [← hr, Slot.bury] at hl
    rw [slot_at ne] at hr
    obtain ⟨q, hq, rq⟩ := h.reached m r hr hl
    refine ⟨q, ?_, by rw [size]; exact rq.set hp (by simp)⟩
    rw [marks, if_neg, hq]
    rintro rfl
    simp only [mark, Option.some.injEq, Mark.slot.injEq] at hq
    exact ne hq
  case names_count =>
    have count : (t.bury p n).index.countP Mark.isSlot + _ = _ :=
      countP_set_mark Mark.isSlot .deleted mark
    simp only [Mark.isSlot, h.names_count, if_true, Bool.false_eq_true, if_false] at count
    omega
  case tombstones_le =>
    have count : (t.bury p n).index.countP (· == .deleted) + _ = _ :=
      countP_set_mark (· == .deleted) .deleted mark
    have before := h.tombstones_le
    simp at count
    omega

end Table

end AwkCore
