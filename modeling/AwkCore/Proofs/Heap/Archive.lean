import AwkCore.Proofs.Heap.Desk

/-!
# Stored keys stay as they are

Notes are kept for each table of an archive: what was stored under which bytes, and nothing of what was
done with the registers afterwards. After any run each table has the entries of its notes, with the hash
of their keys, and finds them. So a change of a string through a register, even through the one that gave
a key or took one from a table, does not reach what is stored.
-/
namespace AwkCore

namespace Archive

open Heap Table

variable {s : Archive} {notes : ℕ → Dictionary Bytes Content} {m : ℕ} {t : Elements} {d d' : Desk}
  {e : Dictionary Bytes Content}

/-- The notes for each table after an action. A copy of a table has the notes of the table. -/
def note (s : Archive) (notes : ℕ → Dictionary Bytes Content) : Action → ℕ → Dictionary Bytes Content
  | .on m a => (s.desk? m).elim notes fun d => Function.update notes m (d.note (notes m) a)
  | .copy m k =>
    match s.tables[m]?, s.tables[k]? with
    | some _, some _ => Function.update notes k (notes m)
    | _, _ => notes

/-- The notes that are kept during a run. -/
def notesAlong (s : Archive) (notes : ℕ → Dictionary Bytes Content) :
    List Action → ℕ → Dictionary Bytes Content
  | [] => notes
  | a :: actions => (s.apply a).notesAlong (s.note notes a) actions

def bank (s : Archive) : Bank := ⟨s.heap.texts, s.registers⟩

/-- The handles of all tables but one. -/
def others (s : Archive) (m : ℕ) : List TextRef :=
  (s.tables.toList.eraseIdx m).flatMap Table.handles

/-- An archive whose tables show what has been noted. No handles are out but those of the tables and the
registers. -/
structure Shows (s : Archive) (notes : ℕ → Dictionary Bytes Content) : Prop where
  held : s.heap.Held (s.tables.toList.flatMap Table.handles ++ s.bank.handles)
  shows : ∀ {m t}, s.tables[m]? = some t → s.heap.Shows t (notes m)

theorem desk?_eq_some (at_m : s.desk? m = some d) :
    ∃ t, s.tables[m]? = some t ∧ d = ⟨s.heap, t, s.registers⟩ := by
  obtain ⟨t, table, rfl⟩ := Option.map_eq_some_iff.mp at_m
  exact ⟨t, table, rfl⟩

theorem handles_perm (table : s.tables[m]? = some t) :
    (s.tables.toList.flatMap Table.handles).Perm (t.handles ++ s.others m) := by
  obtain ⟨lt, at_m⟩ := List.getElem?_eq_some_iff.mp (Array.getElem?_toList.trans table)
  have perm := (List.getElem_cons_eraseIdx_perm lt).symm.flatMap_right Table.handles
  rwa [at_m] at perm

theorem subset_others {n : ℕ} (table : s.tables[n]? = some t) (ne : n ≠ m) :
    t.handles ⊆ s.others m := fun _ mem =>
  List.mem_flatMap.mpr
    ⟨t, List.mem_eraseIdx_iff_getElem?.mpr ⟨n, ne, Array.getElem?_toList.trans table⟩, mem⟩

/-- What is on the desk shows the notes of its table beside the other tables. -/
theorem Shows.desk (shows : s.Shows notes) (at_m : s.desk? m = some d) :
    d.Shows (s.others m) (notes m) := by
  obtain ⟨t, table, rfl⟩ := desk?_eq_some at_m
  have perm : (t.handles ++ s.others m ++ s.bank.handles).Perm
      (t.handles ++ (s.bank.handles ++ s.others m)) := by
    rw [List.append_assoc]
    exact List.perm_append_comm.append_left _
  exact ⟨shows.shows table, shows.held.perm (((handles_perm table).append_right _).trans perm)⟩

/-- A table that is taken back from the desk has its own notes, and all other tables keep theirs. -/
theorem Shows.put (shows : s.Shows notes) (at_m : s.desk? m = some d)
    (leaves : d.Leaves d' (s.others m) e) : (s.put m d').Shows (Function.update notes m e) := by
  obtain ⟨t, table, rfl⟩ := desk?_eq_some at_m
  obtain ⟨lt, _⟩ := Array.getElem?_eq_some_iff.mp table
  constructor
  case held =>
    have perm : (d'.table.handles ++ s.others m).Perm
        ((s.put m d').tables.toList.flatMap Table.handles) := by
      rw [put, Array.toList_setIfInBounds]
      exact ((List.set_perm_cons_eraseIdx lt d'.table).flatMap_right _).symm
    refine leaves.shows.held.perm ?_
    refine (List.perm_append_comm.append_left _).trans ?_
    rw [← List.append_assoc]
    exact perm.append_right _
  case shows =>
    intro n u at_n
    rw [put, Array.getElem?_setIfInBounds] at at_n
    by_cases same : m = n
    · subst same
      rw [if_pos rfl, if_pos lt, Option.some.injEq] at at_n
      rw [Function.update_self, ← at_n]
      exact leaves.shows.toShows
    · rw [if_neg same] at at_n
      rw [Function.update_of_ne (Ne.symm same)]
      have elsewhere := subset_others at_n (Ne.symm same)
      exact (shows.shows at_n).congr fun r mem => leaves.kept r (elsewhere mem)

/-- The copy of a table shares its strings, and what stood in its place is let go of. -/
theorem Shows.copy {old : Elements} {k : ℕ} (shows : s.Shows notes) (table : s.tables[m]? = some t)
    (at_k : s.tables[k]? = some old) :
    (s.put k ⟨(s.heap.duplicate t).discard old, t, s.registers⟩).Shows
      (Function.update notes k (notes m)) := by
  have desk : s.desk? k = some ⟨s.heap, old, s.registers⟩ := by rw [desk?, at_k, Option.map_some]
  have held := (shows.desk desk).held
  have mem : t.handles ⊆ old.handles ++ (s.bank.handles ++ s.others k) := by
    by_cases same : m = k
    · subst same
      rw [Option.some.inj (table.symm.trans at_k)]
      exact List.subset_append_left _ _
    · exact List.subset_append_of_subset_right _
        (List.subset_append_of_subset_right _ (subset_others table same))
  have shared := held.duplicate mem
  have swapped := shared.perm (List.perm_append_comm_assoc _ _ _)
  have keeps := swapped.trans swapped.held.discard (List.subset_append_right _ _)
  exact shows.put desk (.of_moves ((shows.shows table).keeps keeps))

theorem Shows.apply (shows : s.Shows notes) (a : Action) : (s.apply a).Shows (s.note notes a) := by
  cases a with
  | on m a =>
    simp only [Archive.apply, note]
    cases desk : s.desk? m with
    | none => exact shows
    | some d => exact shows.put desk ((shows.desk desk).apply a)
  | copy m k =>
    simp only [Archive.apply, note]
    cases table : s.tables[m]? with
    | none => exact shows
    | some t =>
      cases at_k : s.tables[k]? with
      | none => exact shows
      | some old => exact shows.copy table at_k

theorem Shows.run (shows : s.Shows notes) (actions : List Action) :
    (s.run actions).Shows (s.notesAlong notes actions) := by
  induction actions generalizing s notes with
  | nil => exact shows
  | cons a actions ih => exact ih (shows.apply a)

theorem shows_new (h : Heap) : h.Shows Table.new [] := ⟨Sound.new, nofun, rfl⟩

theorem Shows.empty (tables registers : ℕ) : (empty tables registers).Shows fun _ => [] := by
  constructor
  case held =>
    have new : (Table.new : Elements).handles = [] := rfl
    have all : (Archive.empty tables registers).tables.toList.flatMap Table.handles = [] := by
      simp [Archive.empty, new]
    have bank : (Archive.empty tables registers).bank.handles = [] := by
      simp [Archive.bank, Archive.empty, Bank.handles]
    rw [all, bank]
    exact Texts.Held.empty
  case shows =>
    intro m t table
    rw [Archive.empty, Array.getElem?_replicate] at table
    split at table
    · rw [← Option.some.inj table]
      exact shows_new _
    · cases table

/-- Whatever is done with tables and registers in turn, the table at a place has the entries of its
notes in order of insertion, with one entry for a key. Each has the hash of its key, and it is what is
found under the bytes of the key. -/
theorem run_empty_shows_notes (tables registers : ℕ) (actions : List Action) {m : ℕ} {t : Elements}
    (table : ((empty tables registers).run actions).tables[m]? = some t) :
    let h := ((empty tables registers).run actions).heap
    let notes := (empty tables registers).notesAlong (fun _ => []) actions m
    t.liveSlots.map (fun s => (h.bytes s.key, h.content s.value)) = notes ∧
      (notes.map Prod.fst).Nodup ∧
      (∀ s ∈ t.liveSlots, s.hash = hashBytes (h.bytes s.key)) ∧
      ∀ key, (t.find? h.bytes key).map h.content = (Dictionary.entry? id notes key).map Prod.snd := by
  intro h notes
  obtain ⟨sound, _, same⟩ := ((Shows.empty tables registers).run actions).shows table
  have entries : Dictionary.image h.bytes h.content t.entries = notes := same
  refine ⟨?_, ?_, fun s mem => sound.hash_eq s (List.mem_filter.mp mem).1, fun key => ?_⟩
  · rw [← entries, Dictionary.image, Table.entries, List.map_map]
    rfl
  · rw [← entries, Dictionary.image, List.map_map]
    exact sound.entries_nodup
  · rw [← entries, Dictionary.entry?_image, sound.find_eq, Option.map_map, Option.map_map]
    rfl

/-- A key is changed through the register that gave it, and through one that took it from the table. -/
theorem run_empty_shows_notes_changed :
    let s := (empty 2 2).run [.on 0 (.outside (.create 0 (Buffer.ofBytes [97]))),
      .on 0 (.insert 0 (.string 0)), .on 0 (.outside (.push 0 [98])), .on 0 (.takeKey 0 1),
      .copy 0 1, .on 0 (.outside (.update 1 0 [99]))]
    ∃ t, s.tables[1]? = some t ∧ (s.bank.handle? 0).map s.heap.bytes = some [97, 98] ∧
      (s.bank.handle? 1).map s.heap.bytes = some [99] ∧
      (t.find? s.heap.bytes [97]).map s.heap.content = some (.string [97]) := by
  intro s
  have there : (s.tables[1]?).isSome = true := by decide +kernel
  obtain ⟨t, table⟩ := Option.isSome_iff_exists.mp there
  obtain ⟨_, _, _, found⟩ := run_empty_shows_notes 2 2 _ table
  exact ⟨t, table, by decide +kernel, by decide +kernel, found [97]⟩

end Archive

end AwkCore
