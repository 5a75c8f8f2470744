import AwkCore.Proofs.Heap.Owned
import AwkCore.Proofs.Table.Ledger

/-!
# Accounts of a heap

A heap tallies when every handle on one of its strings and arrays is accounted for: those that are out
are the handles of a list of values, and all others are in the slots of its tables, which have the lines
of their ledgers. A change of a table takes handles that were out and gives some of its own instead. When
it lets go of these, the heap tallies again.
-/
namespace AwkCore

namespace Table

variable {view : TextRef → Bytes} {t u w : Elements} {key : TextRef} {n : ℕ}
  {s s' : Slot TextRef Stored} {taken taken' given given' : List Stored}
  {q : Placement TextRef Stored}

theorem Spent.blank (spent : t.Spent) : t.Blank := by
  intro s mem dead
  rw [spent s mem dead]
  rfl

/-- A table that becomes another one: it takes the handles of some values and gives those of others. -/
structure Trades (t u : Elements) (taken given : List Stored) : Prop where
  texts : (given.flatMap Value.handles ++ u.handles).Perm (taken.flatMap Value.handles ++ t.handles)
  arrays : (given.flatMap Value.arrays ++ u.arrays).Perm (taken.flatMap Value.arrays ++ t.arrays)

theorem perm_trans {α : Type} [DecidableEq α] {a b c taken taken' given given' : List α}
    (first : (given ++ b).Perm (taken ++ a)) (later : (given' ++ c).Perm (taken' ++ b)) :
    (given ++ given' ++ c).Perm (taken ++ taken' ++ a) := by
  rw [List.perm_iff_count] at first later ⊢
  intro x
  have first := first x
  have later := later x
  simp only [List.count_append] at first later ⊢
  omega

theorem Trades.trans (first : t.Trades u taken given) (later : u.Trades w taken' given') :
    t.Trades w (taken ++ taken') (given ++ given') := by
  constructor
  · rw [List.flatMap_append, List.flatMap_append]
    exact perm_trans first.texts later.texts
  · rw [List.flatMap_append, List.flatMap_append]
    exact perm_trans first.arrays later.arrays

theorem strings_handles (keys : List TextRef) :
    ((keys.map Value.string : List Stored).flatMap Value.handles) = keys := by
  rw [List.flatMap_map]
  exact List.flatMap_singleton' keys

theorem strings_arrays (keys : List TextRef) :
    ((keys.map Value.string : List Stored).flatMap Value.arrays) = [] := by
  rw [List.flatMap_map]
  exact List.flatMap_eq_nil_iff.mpr fun _ _ => rfl

/-- Deleted slots have no array. -/
theorem Spent.liveSlots_arrays (spent : t.Spent) :
    (t.liveSlots.flatMap fun s => s.value.arrays).Perm t.arrays := by
  have dead : (t.slots.toList.filter fun s => ! !s.deleted).flatMap (fun s => s.value.arrays) = [] := by
    refine List.flatMap_eq_nil_iff.mpr fun s mem => ?_
    obtain ⟨slot, deleted⟩ := List.mem_filter.mp mem
    rw [spent s slot (by simpa using deleted)]
    rfl
  have parts := (List.filter_append_perm (fun s : Slot TextRef Stored => !s.deleted)
    t.slots.toList).flatMap_right fun s => s.value.arrays
  rwa [List.flatMap_append, dead, List.append_nil] at parts

/-- An insertion takes a handle on a new key, and the keys that it drops lose theirs. -/
theorem Placed.trades (placed : Placed view t key q) (spent : t.Spent) :
    t.Trades q.table (if q.created then [.string key] else []) (q.dropped.map .string) := by
  constructor
  case texts =>
    have taken : (if q.created then [.string key] else [] : List Stored).flatMap Value.handles =
        if q.created then [key] else [] := by
      split <;> rfl
    rw [taken, strings_handles]
    exact placed.handles_perm spent.blank
  case arrays =>
    have taken : (if q.created then [.string key] else [] : List Stored).flatMap Value.arrays = [] := by
      split <;> rfl
    rw [taken, strings_arrays]
    cases placed with
    | found => exact List.Perm.refl _
    | @added u n slots =>
      change u.arrays.Perm t.arrays
      rw [arrays, slots, List.flatMap_append, List.flatMap_singleton]
      exact .of_eq (List.append_nil _)
    | @rebuilt u n slots =>
      change u.arrays.Perm t.arrays
      rw [arrays, slots, List.flatMap_append, List.flatMap_singleton]
      exact (List.Perm.of_eq (List.append_nil _)).trans spent.liveSlots_arrays

/-- A slot with another value. -/
theorem trades_set (slot : t.slots.toList[n]? = some s) (slots : u.slots.toList = t.slots.toList.set n s')
    (key : s'.key = s.key) : t.Trades u [s'.value] [s.value] := by
  constructor
  case texts =>
    rw [List.flatMap_singleton, List.flatMap_singleton]
    exact handles_set_perm slot slots key
  case arrays =>
    obtain ⟨lt, at_n⟩ := List.getElem?_eq_some_iff.mp slot
    have before := (List.getElem_cons_eraseIdx_perm lt).symm.flatMap_right fun s => s.value.arrays
    have after := (List.set_perm_cons_eraseIdx lt s').flatMap_right fun s => s.value.arrays
    rw [at_n] at before
    rw [← slots] at after
    rw [List.flatMap_singleton, List.flatMap_singleton]
    exact (after.append_left _).trans
      ((List.perm_append_comm_assoc _ _ _).trans (before.symm.append_left _))

theorem trades_setValue (slot : t.slots.toList[n]? = some s) (v : Stored) :
    t.Trades (t.setValue n v) [v] [s.value] := trades_set slot (setValue_slots slot v) rfl

theorem trades_bury (slot : t.slots.toList[n]? = some s) (p : ℕ) :
    t.Trades (t.bury p n) [] [s.value] := by
  have trades : t.Trades (t.bury p n) [s.bury.value] [s.value] := trades_set slot (bury_slots slot) rfl
  exact ⟨trades.texts, trades.arrays⟩

/-- The keys and values that a table has handles on. -/
def held (t : Elements) : List Stored := t.heldKeys.map .string ++ t.heldValues

theorem held_handles (t : Elements) : (t.held.flatMap Value.handles).Perm t.handles := by
  rw [held, List.flatMap_append, strings_handles]
  exact t.handles_perm.symm

theorem held_arrays (t : Elements) : t.held.flatMap Value.arrays = t.arrays := by
  rw [held, List.flatMap_append, strings_arrays, t.heldValues_arrays, List.nil_append]

theorem trades_clear (t : Elements) : t.Trades t.clear [] t.held := by
  constructor
  case texts => exact (List.Perm.of_eq (List.append_nil _)).trans t.held_handles
  case arrays => exact .of_eq ((List.append_nil _).trans t.held_arrays)

end Table

namespace Heap

open Table

variable {h h' h'' : Heap} {t t' : Elements} {out taken given vs : List Stored} {v : Stored}
  {book : ℕ → Ledger TextRef Stored} {l : Ledger TextRef Stored} {a : ArrayRef} {r : TextRef}
  {keys : List TextRef}

/-- A heap that has nothing but what it had as another one. -/
structure Remains (h h' : Heap) : Prop where
  texts : ∀ {i b}, h'.texts.get? i = some b → h.texts.get? i = some b
  arrays : ∀ {i t}, h'.arrays.get? i = some t → h.arrays.get? i = some t

theorem Remains.refl (h : Heap) : Remains h h := ⟨id, id⟩

theorem Remains.trans (first : Remains h h') (later : Remains h' h'') : Remains h h'' :=
  ⟨fun there => first.texts (later.texts there), fun there => first.arrays (later.arrays there)⟩

theorem remains_retainText (h : Heap) (r : TextRef) : Remains h (h.retainText r) :=
  ⟨fun there => (Pool.get?_retain _).symm.trans there, id⟩

theorem remains_retain (h : Heap) (v : Stored) : Remains h (h.retain v) := by
  cases v with
  | string r => exact h.remains_retainText r
  | numericString r n => exact h.remains_retainText r
  | array a => exact ⟨id, fun there => (Pool.get?_retain _).symm.trans there⟩
  | _ => exact .refl h

theorem remains_releaseText (h : Heap) (r : TextRef) : Remains h (h.releaseText r) :=
  ⟨fun there => Pool.get?_release there, id⟩

theorem remains_releaseTexts (h : Heap) (rs : List TextRef) : Remains h (h.releaseTexts rs) := by
  induction rs generalizing h with
  | nil => exact .refl h
  | cons r rs ih => exact (h.remains_releaseText r).trans (ih (h.releaseText r))

theorem remains_releaseAll (h : Heap) (vs : List Stored) : Remains h (h.releaseAll vs) := by
  have array {h : Heap} {arrays : Pool Elements} {t : Option Elements} {i : ℕ}
      (released : h.arrays.release i = (arrays, t)) : Remains h { h with arrays := arrays } := by
    refine ⟨id, fun there => Pool.get?_release (i := i) ?_⟩
    rwa [released]
  fun_induction Heap.releaseAll h vs with
  | case1 h => exact .refl h
  | case2 h r vs ih => exact (h.remains_releaseText r).trans ih
  | case3 h r n vs ih => exact (h.remains_releaseText r).trans ih
  | case4 h a vs arrays t freed ih => exact ((array freed).trans (remains_releaseTexts _ _)).trans ih
  | case5 h a vs arrays kept ih => exact (array kept).trans ih
  | case6 h vs ih => exact ih
  | case7 h _ vs ih | case8 h _ vs ih | case9 h _ vs ih | case10 h _ vs ih | case11 h _ vs ih => exact ih

theorem Remains.bytes (remains : Remains h h') (held : 0 < h'.texts.holders r) :
    h'.bytes r = h.bytes r := by
  obtain ⟨b, there⟩ := Pool.exists_get? held
  rw [Heap.bytes, Heap.bytes, Texts.bytes, Texts.bytes, Texts.buffer, Texts.buffer, there,
    remains.texts there]

/-- A table that has the lines of a ledger. -/
structure Lists (h : Heap) (t : Elements) (l : Ledger TextRef Stored) : Prop where
  sound : t.Sound h.bytes
  spent : t.Spent
  ledger_eq : t.ledger = l

theorem Lists.apply (lists : h.Lists t l) (a : Action TextRef Stored) :
    h.Lists (t.apply h.bytes a).1 (l.apply h.bytes a) := by
  obtain ⟨sound, spent, rfl⟩ := lists
  exact ⟨(sound.apply a).sound, spent.apply sound a, sound.ledger_apply a⟩

theorem Lists.congr (lists : h.Lists t l) (same : ∀ s ∈ t.slots.toList, h'.bytes s.key = h.bytes s.key) :
    h'.Lists t l := ⟨lists.sound.congr same, lists.spent, lists.ledger_eq⟩

/-- The handles that are out are those of some values, and each table has the lines of its ledger. -/
structure Tallies (h : Heap) (out : List Stored) (book : ℕ → Ledger TextRef Stored) : Prop where
  held : h.Held (out.flatMap Value.handles)
  owned : h.Owned (out.flatMap Value.arrays)
  lists : ∀ {i t}, h.arrays.get? i = some t → h.Lists t (book i)

theorem Tallies.perm {out' : List Stored} (tallies : h.Tallies out book) (perm : out.Perm out') :
    h.Tallies out' book :=
  ⟨tallies.held.perm (perm.flatMap_right _), tallies.owned.perm (perm.flatMap_right _), tallies.lists⟩

theorem mem_contents {i : ℕ} (there : h.arrays.get? i = some t) : t ∈ h.arrays.contents := by
  obtain ⟨s, shared, rfl⟩ := Option.map_eq_some_iff.mp there
  exact List.mem_filterMap.mpr ⟨some s, List.mem_of_getElem? (Pool.shared?_eq_some shared), rfl⟩

theorem handles_subset_inner {i : ℕ} (there : h.arrays.get? i = some t) : t.handles ⊆ h.inner :=
  fun _ mem => List.mem_flatMap.mpr ⟨t, mem_contents there, mem⟩

/-- What remains of a heap that tallies does so if its counts are right. -/
theorem Tallies.remains {out' : List Stored} (tallies : h.Tallies out book) (remains : Remains h h')
    (held : h'.Held (out'.flatMap Value.handles)) (owned : h'.Owned (out'.flatMap Value.arrays)) :
    h'.Tallies out' book := by
  refine ⟨held, owned, fun {i t} there => ?_⟩
  refine (tallies.lists (remains.arrays there)).congr fun s mem => remains.bytes ?_
  rw [held s.key]
  exact List.count_pos_iff.mpr
    (List.mem_append_right _ (handles_subset_inner there (key_mem_handles mem)))

/-- A value whose string or array is there. -/
structure Alive (h : Heap) (v : Stored) : Prop where
  texts : ∀ r ∈ v.handles, 0 < h.texts.holders r
  arrays : ∀ a ∈ v.arrays, 0 < Pool.holders h.arrays a.place

theorem Tallies.alive (tallies : h.Tallies out book) (mem : v ∈ out) : h.Alive v := by
  constructor
  · intro r held
    rw [tallies.held r]
    exact List.count_pos_iff.mpr (List.mem_append_left _ (List.mem_flatMap.mpr ⟨v, mem, held⟩))
  · intro a held
    exact tallies.owned.holders_pos (List.mem_append_left _ (List.mem_flatMap.mpr ⟨v, mem, held⟩))

theorem Tallies.alive_held {i : ℕ} (tallies : h.Tallies out book) (there : h.arrays.get? i = some t)
    (mem : v ∈ t.held) : h.Alive v := by
  constructor
  · intro r held
    have inside := t.held_handles.mem_iff.mp (List.mem_flatMap.mpr ⟨v, mem, held⟩)
    rw [tallies.held r]
    exact List.count_pos_iff.mpr (List.mem_append_right _ (handles_subset_inner there inside))
  · intro a held
    have inside : a ∈ t.arrays := t.held_arrays ▸ List.mem_flatMap.mpr ⟨v, mem, held⟩
    exact tallies.owned.holders_pos
      (List.mem_append_right _ (List.mem_flatMap.mpr ⟨t, mem_contents there, inside⟩))

/-- An array with a handle out is there, with its table. -/
theorem Tallies.there (tallies : h.Tallies out book) (mem : .array a ∈ out) :
    h.arrays.get? a.place = some (h.elements a) := by
  obtain ⟨t, there⟩ := tallies.owned.there (List.mem_flatMap.mpr ⟨_, mem, List.mem_cons_self⟩)
  rw [Heap.elements, there, Option.getD_some]

theorem Tallies.sound (tallies : h.Tallies out book) (mem : .array a ∈ out) :
    (h.elements a).Sound h.bytes := (tallies.lists (tallies.there mem)).sound

theorem Alive.retain {w : Stored} (alive : h.Alive w) (mem : h.Alive v) : (h.retain v).Alive w := by
  have more {α : Type} {p : Pool α} {i j : ℕ} (held : 0 < p.holders i) (held' : 0 < p.holders j) :
      0 < (p.retain i).holders j := by
    rw [Pool.holders_retain held]
    exact Nat.add_pos_left held' _
  cases v with
  | string r => exact ⟨fun s held => more (mem.texts r List.mem_cons_self) (alive.texts s held), alive.arrays⟩
  | numericString r n =>
    exact ⟨fun s held => more (mem.texts r List.mem_cons_self) (alive.texts s held), alive.arrays⟩
  | array a =>
    exact ⟨alive.texts, fun b held => more (mem.arrays a List.mem_cons_self) (alive.arrays b held)⟩
  | _ => exact alive

theorem Tallies.retain (tallies : h.Tallies out book) (alive : h.Alive v) :
    (h.retain v).Tallies (v :: out) book := by
  have owned := tallies.owned.retain alive.arrays
  refine tallies.remains (h.remains_retain v) ?_ owned
  have share {r : TextRef} (held : 0 < h.texts.holders r) :
      (h.retainText r).Held (r :: out.flatMap Value.handles) := by
    rw [tallies.held r] at held
    exact Texts.Held.share tallies.held (List.count_pos_iff.mp held)
  cases v with
  | string r => exact share (alive.texts r List.mem_cons_self)
  | numericString r n => exact share (alive.texts r List.mem_cons_self)
  | array a =>
    have inner : (h.retain (.array a)).inner = h.inner :=
      congrArg (List.flatMap Table.handles) (Pool.contents_retain _ _)
    rw [Heap.Held, inner]
    exact tallies.held
  | _ => exact tallies.held

theorem Tallies.retainAll (vs : List Stored) (tallies : h.Tallies out book)
    (alive : ∀ v ∈ vs, h.Alive v) :
    (vs.foldl Heap.retain h).Tallies (vs ++ out) book := by
  induction vs generalizing h out with
  | nil => exact tallies
  | cons v vs ih =>
    rw [List.forall_mem_cons] at alive
    have later := ih (tallies.retain alive.1) fun w mem => (alive.2 w mem).retain alive.1
    exact later.perm List.perm_middle

theorem Tallies.releaseTexts (tallies : h.Tallies (keys.map .string ++ out) book) :
    (h.releaseTexts keys).Tallies out book := by
  obtain ⟨held, owned, _⟩ := id tallies
  rw [List.flatMap_append, strings_handles] at held
  rw [List.flatMap_append, strings_arrays] at owned
  exact tallies.remains (h.remains_releaseTexts keys) held.releaseTexts.held owned

theorem Tallies.releaseText (tallies : h.Tallies (.string r :: out) book) :
    (h.releaseText r).Tallies out book := by
  have keyed : h.Tallies ([r].map .string ++ out) book := tallies
  exact keyed.releaseTexts

theorem Tallies.releaseAll (vs : List Stored) (tallies : h.Tallies (vs ++ out) book) :
    (h.releaseAll vs).Tallies out book := by
  obtain ⟨held, owned, _⟩ := id tallies
  rw [List.flatMap_append] at held owned
  exact tallies.remains (h.remains_releaseAll vs) held.releaseAll.held owned.releaseAll

theorem Tallies.setTable (taken : List Stored) (tallies : h.Tallies (taken ++ out) book)
    (there : h.arrays.get? a.place = some t) (lists : h.Lists t' l) (trades : t.Trades t' taken given) :
    (h.setTable a t').Tallies (given ++ out) (Function.update book a.place l) := by
  obtain ⟨held, owned, others⟩ := tallies
  rw [List.flatMap_append] at held owned
  refine ⟨?_, ?_, fun {i u} at_i => ?_⟩
  · rw [List.flatMap_append]
    exact Texts.Held.perm held (Pool.trade_perm there trades.texts).symm
  · rw [List.flatMap_append]
    exact owned.setTable there trades.arrays
  · have at_i : (h.arrays.set a.place t').get? i = some u := at_i
    rw [Pool.get?_set] at at_i
    by_cases same : a.place = i
    · subst same
      rw [if_pos rfl, there, Option.map_some, Option.some.injEq] at at_i
      rw [Function.update_self, ← at_i]
      exact lists.congr fun _ _ => rfl
    · rw [if_neg same] at at_i
      rw [Function.update_of_ne (Ne.symm same)]
      exact (others at_i).congr fun _ _ => rfl

/-- A table is changed: it takes what was out, and what it gives is let go of. -/
theorem Tallies.settle (taken : List Stored) (keys : List TextRef) (vs : List Stored)
    (tallies : h.Tallies (taken ++ out) book) (there : h.arrays.get? a.place = some t)
    (mem : .array a ∈ out) (lists : h.Lists t' l)
    (trades : t.Trades t' taken (keys.map .string ++ vs)) :
    (((h.releaseTexts keys).releaseAll vs).setTable a t').Tallies out
      (Function.update book a.place l) := by
  have changed := tallies.setTable taken there lists trades
  rw [List.append_assoc] at changed
  have dropped : ((h.releaseTexts keys).setTable a t').Tallies (vs ++ out) _ := changed.releaseTexts
  have owned := dropped.owned
  rw [List.flatMap_append] at owned
  rw [← owned.releaseAll_setTable (List.mem_flatMap.mpr ⟨_, mem, List.mem_cons_self⟩)]
  exact dropped.releaseAll vs

theorem bytes_retain (h : Heap) (v : Stored) : (h.retain v).bytes = h.bytes := by
  have text (r : TextRef) : (h.retainText r).bytes = h.bytes :=
    funext fun s => congrArg Buffer.content Texts.buffer_share
  cases v with
  | string r => exact text r
  | numericString r n => exact text r
  | _ => rfl

/-- A new entry takes a handle on its key. -/
theorem Tallies.retainKey {key : TextRef} (tallies : h.Tallies out book)
    (mem : key ∈ out.flatMap Value.handles) (created : Bool) :
    let h' := if created then h.retainText key else h
    h'.Tallies ((if created then [.string key] else []) ++ out) book ∧ h'.bytes = h.bytes ∧
      h'.arrays = h.arrays := by
  cases created with
  | false => exact ⟨tallies, rfl, rfl⟩
  | true =>
    have alive : h.Alive (.string key) := by
      refine ⟨fun r held => ?_, nofun⟩
      rw [List.mem_singleton.mp held, tallies.held key]
      exact List.count_pos_iff.mpr (List.mem_append_left _ mem)
    exact ⟨tallies.retain alive, h.bytes_retain (.string key), rfl⟩

theorem Tallies.insert {key : TextRef} (tallies : h.Tallies (v :: out) book)
    (there : h.arrays.get? a.place = some t) (mem : .array a ∈ out)
    (key_mem : key ∈ out.flatMap Value.handles) :
    ((h.insert t key v).1.setTable a (h.insert t key v).2).Tallies out
      (Function.update book a.place ((book a.place).apply h.bytes (.insert key v))) := by
  have lists := tallies.lists there
  let p := t.findOrInsert h.bytes key
  obtain ⟨s, here⟩ := (lists.sound.findOrInsert_entries key).2
  have trades := ((lists.sound.placed key).trades lists.spent).trans (trades_setValue here.slot_at v)
  have key_mem' : key ∈ (v :: out).flatMap Value.handles := List.mem_append_right _ key_mem
  obtain ⟨kept, bytes, arrays⟩ := tallies.retainKey key_mem' p.created
  rw [List.append_cons] at kept
  have settled := kept.settle _ _ _ (by rwa [arrays]) mem
    ((lists.apply (.insert key v)).congr fun _ _ => by rw [bytes]) trades
  have released : (h.insert t key v).1 =
      ((if p.created then h.retainText key else h).releaseTexts p.dropped).releaseAll [s.value] := by
    show Heap.release _ ((p.table.valueAt? p.slot).getD default) = _
    rw [here.valueAt]
    rfl
  rw [released]
  exact settled

theorem Tallies.visit {key : TextRef} (tallies : h.Tallies out book)
    (there : h.arrays.get? a.place = some t) (mem : .array a ∈ out)
    (key_mem : key ∈ out.flatMap Value.handles) :
    ((h.findOrInsert t key).1.setTable a (h.findOrInsert t key).2.table).Tallies out
      (Function.update book a.place ((book a.place).apply h.bytes (.visit key id))) := by
  have lists := tallies.lists there
  let p := t.findOrInsert h.bytes key
  obtain ⟨s, here⟩ := (lists.sound.findOrInsert_entries key).2
  have trades := (lists.sound.placed key).trades lists.spent
  rw [← List.append_nil (p.dropped.map Value.string)] at trades
  obtain ⟨kept, bytes, arrays⟩ := tallies.retainKey key_mem p.created
  have same : (t.apply h.bytes (.visit key id)).1 = p.table := by
    show p.table.writeAt p.slot id = p.table
    rw [writeAt, here.valueAt]
    exact setValue_self here.slot_at
  have lists' := lists.apply (.visit key id)
  rw [same] at lists'
  have settled := kept.settle _ _ [] (by rwa [arrays]) mem
    (lists'.congr fun _ _ => by rw [bytes]) trades
  rwa [Heap.releaseAll] at settled

theorem Tallies.delete (tallies : h.Tallies out book)
    (there : h.arrays.get? a.place = some t) (mem : .array a ∈ out) (key : Bytes) :
    ((h.delete t key).1.setTable a (h.delete t key).2.1).Tallies out
      (Function.update book a.place ((book a.place).apply h.bytes (.delete key))) := by
  have lists := tallies.lists there
  have lists' := lists.apply (.delete key)
  rcases lists.sound.search key with ⟨p, n, s, probe, mark, here⟩ | ⟨p, probe, absent⟩
  · have deleted : h.delete t key = (h.release s.value, t.bury p n, true) := by
      simp only [Heap.delete, delete_found probe, here.valueAt]
    simp only [Table.apply, delete_found probe] at lists'
    rw [deleted]
    exact tallies.settle [] [] [s.value] there mem lists' (trades_bury here.slot_at p)
  · have deleted : h.delete t key = (h, t, false) := by simp [Heap.delete, Table.delete, probe]
    simp only [Table.apply, Table.delete, probe] at lists'
    rw [deleted]
    have same : t.Trades t [] [] := ⟨List.Perm.refl _, List.Perm.refl _⟩
    exact tallies.setTable [] there lists' same

theorem Tallies.clear (tallies : h.Tallies out book)
    (there : h.arrays.get? a.place = some t) (mem : .array a ∈ out) :
    ((h.discard t).setTable a t.clear).Tallies out
      (Function.update book a.place ((book a.place).apply h.bytes .clear)) :=
  tallies.settle [] _ _ there mem ((tallies.lists there).apply .clear) t.trades_clear

/-- Strings may come, go and change as long as the keys of tables keep their bytes. -/
theorem Tallies.withTexts {out' : List Stored} {texts : Texts} (tallies : h.Tallies out book)
    (held : Heap.Held { h with texts := texts } (out'.flatMap Value.handles))
    (arrays : out'.flatMap Value.arrays = out.flatMap Value.arrays)
    (kept : ∀ r ∈ h.inner, texts.buffer r = h.texts.buffer r) :
    Tallies { h with texts := texts } out' book := by
  refine ⟨held, ?_, fun {i t} there => ?_⟩
  · rw [arrays]
    exact tallies.owned
  · refine (tallies.lists there).congr fun s mem => congrArg Buffer.content (kept s.key ?_)
    exact handles_subset_inner there (key_mem_handles mem)

theorem Tallies.addText (tallies : h.Tallies out book) (content : Bytes) :
    (h.addText content).1.Tallies (.string (h.addText content).2 :: out) book := by
  refine tallies.withTexts (Texts.Held.create tallies.held) rfl fun r mem => ?_
  refine Texts.buffer_create_ne ?_
  rintro rfl
  exact Texts.Held.fresh tallies.held (List.mem_append_right _ mem)

theorem Tallies.rewrite (tallies : h.Tallies (.string r :: out) book) (content : Bytes) :
    let q := h.texts.replace r content
    Tallies { h with texts := q.1 } (.string q.2 :: out) book := by
  have held : Texts.Held h.texts (r :: (out.flatMap Value.handles ++ h.inner)) := tallies.held
  have written := held.replace content
  exact tallies.withTexts written.held rfl fun r mem =>
    written.kept r (List.mem_append_right _ mem)

theorem Tallies.addTable (tallies : h.Tallies (t.held ++ out) book) (lists : h.Lists t l) :
    (h.addTable t).1.Tallies (.array (h.addTable t).2 :: out)
      (Function.update book h.arrays.fresh l) := by
  obtain ⟨held, owned, others⟩ := tallies
  rw [List.flatMap_append] at held owned
  refine ⟨?_, ?_, fun {i u} there => ?_⟩
  · refine Texts.Held.perm held (List.perm_iff_count.mpr fun r => ?_)
    have brought := t.held_handles.count_eq r
    have inner : (h.addTable t).1.inner = h.inner ++ t.handles := by
      simp [Heap.inner, Heap.addTable, Pool.contents_add]
    have none : (Value.array (h.addTable t).2 : Stored).handles = [] := rfl
    rw [inner, List.flatMap_cons, none]
    simp only [List.count_append, List.nil_append] at brought ⊢
    omega
  · rw [t.held_arrays] at owned
    exact owned.addTable
  · have there : (h.arrays.add t).get? i = some u := there
    rw [Pool.get?_add] at there
    by_cases new : h.arrays.fresh = i
    · rw [if_pos new, Option.some.injEq] at there
      rw [← new, Function.update_self, ← there]
      exact lists.congr fun _ _ => rfl
    · rw [if_neg new] at there
      rw [Function.update_of_ne (Ne.symm new)]
      exact (others there).congr fun _ _ => rfl

theorem lists_new (h : Heap) : h.Lists Table.new Ledger.empty := by
  exact ⟨Sound.new, fun s mem => absurd mem List.not_mem_nil, rfl⟩

theorem Tallies.add (tallies : h.Tallies out book) (v : Content) :
    (h.add v).1.Tallies ((h.add v).2 :: out)
      (if v.isArray then Function.update book h.arrays.fresh Ledger.empty else book) := by
  cases v with
  | string content => exact tallies.addText content
  | numericString content n =>
    have added := tallies.addText content
    exact ⟨added.held, added.owned, added.lists⟩
  | array => exact Tallies.addTable (t := Table.new) tallies h.lists_new
  | _ => exact ⟨tallies.held, tallies.owned, tallies.lists⟩

theorem retainAll_arrays (h : Heap) (vs : List Stored) :
    (vs.foldl Heap.retain h).arrays.fresh = h.arrays.fresh ∧
      ∀ i, (vs.foldl Heap.retain h).arrays.get? i = h.arrays.get? i := by
  induction vs generalizing h with
  | nil => exact ⟨rfl, fun _ => rfl⟩
  | cons v vs ih =>
    have first : (h.retain v).arrays.fresh = h.arrays.fresh ∧
        ∀ i, (h.retain v).arrays.get? i = h.arrays.get? i := by
      cases v with
      | array a => exact ⟨Array.size_modify, fun _ => Pool.get?_retain _⟩
      | _ => exact ⟨rfl, fun _ => rfl⟩
    obtain ⟨fresh, same⟩ := ih (h.retain v)
    exact ⟨fresh.trans first.1, fun i => (same i).trans (first.2 i)⟩

/-- A copy of a table shares its strings and arrays. -/
theorem Tallies.clone (tallies : h.Tallies out book) {i : ℕ} (there : h.arrays.get? i = some t) :
    let q := (h.duplicate t).addTable t
    q.1.Tallies (.array q.2 :: out) (Function.update book h.arrays.fresh (book i)) := by
  have retained := tallies.retainAll t.held fun v mem => tallies.alive_held there mem
  have duplicated : t.held.foldl Heap.retain h = h.duplicate t := by
    rw [Table.held, List.foldl_append, List.foldl_map, duplicate]
    rfl
  obtain ⟨fresh, same⟩ := h.retainAll_arrays t.held
  rw [duplicated] at retained fresh same
  rw [← fresh]
  exact retained.addTable (retained.lists ((same i).trans there))

end Heap

end AwkCore
