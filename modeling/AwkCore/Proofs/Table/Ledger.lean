import AwkCore.Proofs.Table.Placed

/-!
# Tables line by line

A ledger has a line for each entry that was made, in the order in which they came in. A line keeps its key
when the entry is deleted, and gives up the value. Lines go when everything is cleared; and when a new
entry finds no room, those of deleted entries go before it is written. Every run of operations on a table
leaves the slots that its ledger lists.
-/
namespace AwkCore

variable {κ ν : Type}

/-- A key, and its value as long as the entry is not deleted. -/
structure Ledger.Line (κ ν : Type) where
  key : κ
  value? : Option ν

structure Ledger (κ ν : Type) where
  size : ℕ
  lines : List (Ledger.Line κ ν)

namespace Ledger

variable (view : κ → Bytes) (l : Ledger κ ν) (key : Bytes)

def empty : Ledger κ ν := ⟨Table.minimumSize, []⟩

/-- Whether a line is that of the entry which is there for a key. -/
def isAt (e : Line κ ν) : Bool := e.value?.isSome && view e.key == key

/-- The lines of entries that are not deleted. -/
def live : List (Line κ ν) := l.lines.filter fun e => e.value?.isSome

/-- Give the entry for a key another value, or none. -/
def write (f : ν → Option ν) : Ledger κ ν :=
  { l with lines := l.lines.map fun e => if isAt view key e then ⟨e.key, e.value?.bind f⟩ else e }

/-- A ledger with room for one more line. The size is doubled if the entries come up to half of what it
allows. -/
def renewed : Ledger κ ν :=
  if l.lines.length < Table.limitFor l.size then l
  else ⟨if Table.limitFor l.size / 2 ≤ l.live.length then 2 * l.size else l.size, l.live⟩

def add (k : κ) (v : ν) : Ledger κ ν := { l with lines := l.lines ++ [⟨k, some v⟩] }

/-- The entry for a key keeps the key that it was made for. -/
def visit [Inhabited ν] (k : κ) (f : ν → ν) : Ledger κ ν :=
  if l.lines.any (isAt view (view k)) then l.write view (view k) fun v => some (f v)
  else l.renewed.add k (f default)

def apply [Inhabited ν] : Table.Action κ ν → Ledger κ ν
  | .change key f => l.write view key fun v => some (f v)
  | .visit k f => l.visit view k f
  | .insert k v => l.visit view k fun _ => v
  | .delete key => l.write view key fun _ => none
  | .clear => ⟨l.size, []⟩
  | .find _ | .contains _ | .length | .entries | .keys => l

/-- The number of lines with a key, whether their entries are there or deleted. -/
def keysOn [BEq κ] (k : κ) : ℕ := l.lines.countP fun e => e.key == k

/-- The number of entries that are there with a value of some kind. -/
def valuesOn (p : ν → Bool) : ℕ := l.lines.countP fun e => e.value?.any p

variable {view l key}

theorem write_absent (absent : l.lines.any (isAt view key) = false) (f : ν → Option ν) :
    l.write view key f = l := by
  rw [write, List.map_congr_left (g := id), List.map_id]
  intro e mem
  rw [if_neg (Bool.not_eq_true _ ▸ List.any_eq_false.mp absent e mem)]
  rfl

theorem renewed_lines_subset : l.renewed.lines ⊆ l.lines := by
  unfold renewed
  split
  · exact List.Subset.refl _
  · exact List.filter_subset_self _

/-- What is written to a new line is its value. -/
theorem write_add {k : κ} (absent : l.lines.any (isAt view (view k)) = false) (v : ν)
    (f : ν → ν) : (l.add k v).write view (view k) (fun v => some (f v)) = l.add k (f v) := by
  have new : isAt view (view k) ⟨k, some v⟩ = true := by simp [isAt]
  have written : (l.add k v).write view (view k) (fun v => some (f v)) =
      (l.write view (view k) fun v => some (f v)).add k (f v) := by
    simp only [write, add, List.map_append, List.map_singleton, if_pos new, Option.bind_some]
  rw [written, write_absent absent]

end Ledger

def Slot.line (s : Slot κ ν) : Ledger.Line κ ν := ⟨s.key, if s.deleted then none else some s.value⟩

def Table.ledger (t : Table κ ν) : Ledger κ ν := ⟨t.size, t.slots.toList.map Slot.line⟩

namespace Table

open Ledger (isAt)

variable {view : κ → Bytes} {t : Table κ ν} {key : Bytes}

theorem isAt_line (s : Slot κ ν) : isAt view key s.line = (!s.deleted && view s.key == key) := by
  rw [isAt, Slot.line]
  cases s.deleted <;> rfl

theorem any_isAt (present : ∃ s ∈ t.liveSlots, view s.key = key) :
    t.ledger.lines.any (isAt view key) = true := by
  simpa [ledger, liveSlots, isAt_line, List.any_map, and_assoc] using present

theorem any_isAt_absent (absent : ∀ s ∈ t.liveSlots, view s.key ≠ key) :
    t.ledger.lines.any (isAt view key) = false := by
  simpa [ledger, liveSlots, isAt_line, List.any_map] using absent

theorem ledger_live : t.ledger.live = t.liveSlots.map Slot.line := by
  rw [Ledger.live, ledger, liveSlots, List.filter_map]
  congr 2
  funext s
  cases deleted : s.deleted <;> simp [Slot.line, deleted]

/-- A change of the live slot of a key is one of its line, and no other line has the key. -/
theorem Live.ledger_modify {n : ℕ} {s : Slot κ ν} (h : Sound view t) (here : Live view t n s key)
    {u : Table κ ν} {g : Slot κ ν → Slot κ ν} {f : ν → Option ν} (size : u.size = t.size)
    (slots : u.slots.toList = t.slots.toList.modify n g)
    (line : ∀ s : Slot κ ν, s.deleted = false → (g s).line = ⟨s.key, f s.value⟩) :
    u.ledger = t.ledger.write view key f := by
  rw [ledger, Ledger.write, ledger, size, slots, modify_eq_map (here.only h), List.map_map,
    List.map_map]
  congr 1
  apply List.map_congr_left
  intro r _
  simp only [Function.comp, isAt_line]
  split
  case isTrue at_key =>
    have live : r.deleted = false := by simpa using (Bool.and_eq_true_iff.mp at_key).1
    rw [line r live, Slot.line, live]
    rfl
  case isFalse => rfl

theorem size_writeAt (t : Table κ ν) (n : ℕ) (f : ν → ν) : (t.writeAt n f).size = t.size := by
  unfold writeAt
  split <;> rfl

theorem Live.ledger_writeAt {n : ℕ} {s : Slot κ ν} (h : Sound view t) (here : Live view t n s key)
    (f : ν → ν) : (t.writeAt n f).ledger = t.ledger.write view key fun v => some (f v) := by
  have slots : (t.writeAt n f).slots.toList =
      t.slots.toList.modify n fun r => { r with value := f r.value } := by
    rw [modify_eq_set here.slot_at, writeAt, here.valueAt]
    exact (Sequence.toList_modify _ _ _).trans (modify_eq_set here.slot_at)
  refine here.ledger_modify h (t.size_writeAt n f) slots fun r live => ?_
  simp [Slot.line, live]

theorem keysOn_ledger [BEq κ] (k : κ) :
    t.ledger.keysOn k = t.slots.toList.countP fun s => s.key == k := by
  rw [Ledger.keysOn, ledger, List.countP_map]
  rfl

theorem valuesOn_ledger (p : ν → Bool) :
    t.ledger.valuesOn p = t.slots.toList.countP fun s => !s.deleted && p s.value := by
  rw [Ledger.valuesOn, ledger, List.countP_map]
  congr 1
  funext s
  cases deleted : s.deleted <;> simp [Slot.line, deleted]

/-- A slot with another value, or with none if it is deleted. -/
theorem ledger_set [BEq κ] {u : Table κ ν} {n : ℕ} {s s' : Slot κ ν} (slot : t.slots.toList[n]? = some s)
    (live : s.deleted = false) (slots : u.slots.toList = t.slots.toList.set n s') (key : s'.key = s.key) :
    (∀ k, u.ledger.keysOn k = t.ledger.keysOn k) ∧
      ∀ p : ν → Bool, u.ledger.valuesOn p + (p s.value).toNat =
        t.ledger.valuesOn p + (!s'.deleted && p s'.value).toNat := by
  constructor
  · intro k
    have count := countP_set_add (p := fun s : Slot κ ν => s.key == k) s' slot
    rw [keysOn_ledger, keysOn_ledger, slots]
    rw [key] at count
    exact Nat.add_right_cancel count
  · intro p
    have count := countP_set_add (p := fun s : Slot κ ν => !s.deleted && p s.value) s' slot
    have one (b : Bool) : (if b = true then 1 else 0) = b.toNat := by cases b <;> rfl
    rw [valuesOn_ledger, valuesOn_ledger, slots]
    rwa [one, one, live, Bool.not_false, Bool.true_and] at count

theorem Sound.find_cases (h : Sound view t) (key : Bytes) :
    (∃ p n s, t.probe view key = .found p n ∧ Live view t n s key ∧ t.find? view key = some s.value) ∨
      ((∀ s ∈ t.liveSlots, view s.key ≠ key) ∧ t.find? view key = none) := by
  rcases h.search key with ⟨p, n, s, probe, _, here⟩ | ⟨p, probe, absent⟩
  · exact .inl ⟨p, n, s, probe, here, by simp [find?, slot?, probe, here.valueAt]⟩
  · exact .inr ⟨absent, by simp [find?, slot?, probe]⟩

variable [Inhabited ν]

/-- A new entry gets a line of its own, behind those that it leaves. -/
theorem Sound.ledger_vacant (h : Sound view t) (k : κ) {p : ℕ}
    (vacant : t.probe view (view k) = .vacant p) :
    (t.findOrInsert view k).table.ledger = t.ledger.renewed.add k default := by
  have length : t.ledger.lines.length = t.live + t.deleted := by
    rw [ledger, List.length_map, h.slots_length]
  have live : t.ledger.live.length = t.live := by
    rw [ledger_live, List.length_map, liveSlots_length h]
  have limit : limitFor t.ledger.size = t.limit := h.limit_eq.symm
  rw [findOrInsert_vacant vacant, Ledger.renewed, length, live, limit]
  split
  case isTrue =>
    have size : (t.attach p (newSlot view k)).size = t.size := Array.size_setIfInBounds
    have slots : (t.attach p (newSlot view k)).slots.toList = t.slots.toList ++ [newSlot view k] :=
      Sequence.toList_append _ _
    rw [ledger, size, slots, List.map_append]
    rfl
  case isFalse =>
    obtain ⟨q, place⟩ := h.rebuild_sound.emptyPlace_isSome (hashBytes (view k))
    have table : (t.placeInRebuilt (newSlot view k)).table = t.rebuild.attach q (newSlot view k) := by
      simp [Table.placeInRebuilt, Table.reattach, newSlot, place]
    have size : (t.rebuild.attach q (newSlot view k)).size = t.rebuiltSize :=
      Array.size_setIfInBounds.trans h.rebuild_size
    have slots : (t.rebuild.attach q (newSlot view k)).slots.toList =
        t.liveSlots ++ [newSlot view k] := by
      rw [← h.rebuild_slots]
      exact Sequence.toList_append _ _
    rw [table, ledger, size, slots, List.map_append, ← ledger_live]
    rfl

/-- Writing to the slot that an insertion answers does what a visit does to the ledger. -/
theorem Sound.ledger_visit (h : Sound view t) (k : κ) (f : ν → ν) :
    ((t.findOrInsert view k).table.writeAt (t.findOrInsert view k).slot f).ledger =
      t.ledger.visit view k f := by
  rcases h.search (view k) with ⟨p, n, s, probe, _, here⟩ | ⟨p, probe, absent⟩
  · rw [findOrInsert_found probe, Ledger.visit, if_pos (any_isAt ⟨s, here.mem, here.key_eq⟩)]
    exact here.ledger_writeAt h f
  · have none : t.ledger.lines.any (isAt view (view k)) = false := any_isAt_absent absent
    have none' : t.ledger.renewed.lines.any (isAt view (view k)) = false :=
      List.any_eq_false.mpr fun e mem =>
        List.any_eq_false.mp none e (Ledger.renewed_lines_subset mem)
    obtain ⟨s, here⟩ := (h.findOrInsert_entries k).2
    rw [here.ledger_writeAt (h.visit_sound k), h.ledger_vacant k probe, Ledger.write_add none',
      Ledger.visit, none, if_neg Bool.false_ne_true]

/-- An action on a sound table does what it does to the ledger of its slots. -/
theorem Sound.ledger_apply (h : Sound view t) (a : Action κ ν) :
    (t.apply view a).1.ledger = t.ledger.apply view a := by
  cases a with
  | change key f =>
    rcases h.slot_cases key with ⟨n, s, slot, here⟩ | ⟨slot, absent⟩
    · simp only [Table.apply, slot]
      exact here.ledger_writeAt h f
    · simp only [Table.apply, slot]
      exact (Ledger.write_absent (any_isAt_absent absent) _).symm
  | visit k f => exact h.ledger_visit k f
  | insert k v =>
    simp only [Table.apply, h.insert_eq k v]
    exact h.ledger_visit k _
  | delete key =>
    rcases h.search key with ⟨p, n, s, probe, _, here⟩ | ⟨p, probe, absent⟩
    · simp only [Table.apply, delete_found probe]
      have slots : (t.bury p n).slots.toList = t.slots.toList.modify n Slot.bury :=
        Sequence.toList_modify _ _ _
      exact here.ledger_modify h Array.size_setIfInBounds slots fun _ _ => rfl
    · simp only [Table.apply, Table.delete, probe]
      exact (Ledger.write_absent (any_isAt_absent absent) _).symm
  | clear => simp [Table.apply, Table.clear, Table.ofSize, Table.size, ledger, Ledger.apply]
  | find | contains | length | entries | keys => rfl

/-- A deleted slot has given up its value. -/
def Spent (t : Table κ ν) : Prop := ∀ s ∈ t.slots.toList, s.deleted = true → s.value = default

/-- A slot may be changed to one that is live or without a value. -/
theorem Spent.set {u : Table κ ν} {n : ℕ} {s : Slot κ ν} (spent : t.Spent)
    (slots : u.slots.toList = t.slots.toList.set n s) (fits : s.deleted = true → s.value = default) :
    u.Spent := by
  intro r mem
  rw [slots] at mem
  rcases List.mem_or_eq_of_mem_set mem with old | rfl
  · exact spent r old
  · exact fits

theorem Placed.spent {key : κ} {q : Placement κ ν} (placed : Placed view t key q) (spent : t.Spent) :
    q.table.Spent := by
  have new : ∀ s ∈ [newSlot (ν := ν) view key], s.deleted = true → s.value = default := by
    simp [newSlot]
  cases placed with
  | found => exact spent
  | added slots =>
    rw [Spent, slots]
    exact List.forall_mem_append.mpr ⟨spent, new⟩
  | rebuilt slots =>
    rw [Spent, slots]
    exact List.forall_mem_append.mpr ⟨fun s mem => spent s (List.mem_filter.mp mem).1, new⟩

theorem Spent.writeAt {n : ℕ} {s : Slot κ ν} {key : Bytes} (spent : t.Spent)
    (here : Live view t n s key) (f : ν → ν) : (t.writeAt n f).Spent := by
  have slots : (t.writeAt n f).slots.toList = t.slots.toList.set n { s with value := f s.value } := by
    rw [Table.writeAt, here.valueAt, ← modify_eq_set (f := fun r => { r with value := f s.value })
      here.slot_at]
    exact Sequence.toList_modify _ _ _
  exact spent.set slots fun dead => absurd dead (by simp [here.live])

theorem Spent.apply (spent : t.Spent) (h : Sound view t) (a : Action κ ν) :
    (t.apply view a).1.Spent := by
  have visited (key : κ) (f : ν → ν) :
      ((t.findOrInsert view key).table.writeAt (t.findOrInsert view key).slot f).Spent := by
    obtain ⟨s, here⟩ := (h.findOrInsert_entries key).2
    exact ((h.placed key).spent spent).writeAt here f
  cases a with
  | change key f =>
    rcases h.slot_cases key with ⟨n, s, slot, here⟩ | ⟨slot, _⟩
    · simp only [Table.apply, slot]
      exact spent.writeAt here f
    · simp only [Table.apply, slot]
      exact spent
  | visit key f => exact visited key f
  | insert key v =>
    simp only [Table.apply, h.insert_eq key v]
    exact visited key _
  | delete key =>
    rcases h.search key with ⟨p, n, s, probe, _, here⟩ | ⟨p, probe, _⟩
    · simp only [Table.apply, delete_found probe]
      have slots : (t.bury p n).slots.toList = t.slots.toList.set n s.bury :=
        (Sequence.toList_modify _ _ _).trans (modify_eq_set here.slot_at)
      exact spent.set slots fun _ => rfl
    · simp only [Table.apply, Table.delete, probe]
      exact spent
  | clear => exact fun s mem => absurd mem (List.not_mem_nil)
  | find | contains | length | entries | keys => exact spent

/-- What the lines of a ledger hold after a change of its table: a value that is deleted or overwritten
counts no more, while its key stays as it is; and no line is left of what was deleted before everything is
cleared, or before a new entry comes in that finds no room. -/
structure Settles [BEq κ] (view : κ → Bytes) (t : Table κ ν) (l : Ledger κ ν) : Prop where
  deleted : ∀ {key : Bytes} {old : ν}, t.find? view key = some old →
    let m := l.apply view (.delete key)
    (∀ k, m.keysOn k = l.keysOn k) ∧ ∀ p : ν → Bool, m.valuesOn p + (p old).toNat = l.valuesOn p
  overwritten : ∀ {k : κ} {v old : ν}, t.find? view (view k) = some old →
    let m := l.apply view (.insert k v)
    (∀ k, m.keysOn k = l.keysOn k) ∧
      ∀ p : ν → Bool, m.valuesOn p + (p old).toNat = l.valuesOn p + (p v).toNat
  cleared : (l.apply view .clear).lines = []
  renewed : ∀ {k : κ} {v : ν}, t.find? view (view k) = none → limitFor l.size ≤ l.lines.length →
    (l.apply view (.insert k v)).lines = l.live ++ [⟨k, some v⟩]

theorem Sound.settles [BEq κ] (h : Sound view t) : Settles view t t.ledger := by
  constructor
  case deleted =>
    intro key old found m
    rcases h.find_cases key with ⟨p, n, s, probe, here, value⟩ | ⟨_, none⟩
    · obtain rfl := Option.some.inj (value.symm.trans found)
      have buried : m = (t.bury p n).ledger := by
        refine (h.ledger_apply (.delete key)).symm.trans ?_
        rw [Table.apply, delete_found probe]
      have slots : (t.bury p n).slots.toList = t.slots.toList.set n s.bury :=
        (Sequence.toList_modify _ _ _).trans (modify_eq_set here.slot_at)
      rw [buried]
      exact ledger_set here.slot_at here.live slots rfl
    · cases none.symm.trans found
  case overwritten =>
    intro k v old found m
    rcases h.find_cases (view k) with ⟨p, n, s, probe, here, value⟩ | ⟨_, none⟩
    · obtain rfl := Option.some.inj (value.symm.trans found)
      have written : m = (t.setValue n v).ledger := by
        refine (h.ledger_apply (.insert k v)).symm.trans ?_
        rw [Table.apply, findOrInsert_found probe]
      have slots : (t.setValue n v).slots.toList = t.slots.toList.set n { s with value := v } := by
        rw [← modify_eq_set (f := fun s => { s with value := v }) here.slot_at]
        exact Sequence.toList_modify _ _ _
      rw [written]
      have counts := ledger_set here.slot_at here.live slots rfl
      simpa [here.live] using counts
    · cases none.symm.trans found
  case cleared => rfl
  case renewed =>
    intro k v none full
    rcases h.find_cases (view k) with ⟨_, _, _, _, _, value⟩ | ⟨absent, _⟩
    · cases value.symm.trans none
    · rw [Ledger.apply, Ledger.visit, any_isAt_absent absent, if_neg Bool.false_ne_true, Ledger.renewed,
        if_neg (Nat.not_lt.mpr full)]
      rfl

end Table

end AwkCore
