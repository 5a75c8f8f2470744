import AwkCore.Heap.Desk
import AwkCore.Proofs.Texts.Held

/-!
# Handles on a heap

The handles on the strings of a heap are those that its arrays hold and those that are out. `Held` says
which are out. When values are let go of, their handles go and all that freed arrays held, while every
handle that is still out has its string.
-/
namespace AwkCore

/-- The handle of a value on a string, if it has one. -/
def Value.handles (v : Stored) : List TextRef := v.text?.toList

theorem Value.map_congr {τ α : Type} {f f' : TextRef → τ} {g : ArrayRef → α} {v : Stored}
    (same : ∀ r ∈ v.handles, f' r = f r) : v.map f' g = v.map f g := by
  cases v with
  | string r => exact congrArg Value.string (same r List.mem_cons_self)
  | numericString r n => exact congrArg (Value.numericString · n) (same r List.mem_cons_self)
  | _ => rfl

def Slot.handles (s : Slot TextRef Stored) : List TextRef := s.key :: s.value.handles

def Table.handles (t : Elements) : List TextRef := t.slots.toList.flatMap Slot.handles

theorem Table.handles_perm (t : Elements) :
    t.handles.Perm (t.heldKeys ++ t.heldValues.flatMap Value.handles) := by
  rw [handles, heldKeys, heldValues]
  induction t.slots.toList with
  | nil => exact List.Perm.refl _
  | cons s slots ih =>
    have values := ih.append_left s.value.handles
    rw [List.perm_iff_count] at values ⊢
    intro r
    have count := values r
    simp only [List.flatMap_cons, List.map_cons, List.count_append, List.cons_append,
      List.count_cons, Slot.handles] at count ⊢
    omega

namespace Pool

variable {α : Type}

def contents (p : Pool α) : List α := p.places.toList.filterMap fun o => o.map Shared.content

theorem contents_add (p : Pool α) (a : α) : (p.add a).contents = p.contents ++ [a] := by
  simp [contents, add]

/-- A change of the holders leaves all contents as they are. -/
theorem contents_modify (p : Pool α) (i : ℕ) {f : Shared α → Shared α}
    (same : ∀ s, (f s).content = s.content) :
    (Pool.mk (p.places.modify i fun o => o.map f)).contents = p.contents := by
  have kept (o : Option (Shared α)) : (o.map f).map Shared.content = o.map Shared.content := by
    cases o <;> simp [same]
  rw [contents, contents, Array.toList_modify]
  induction p.places.toList generalizing i with
  | nil => simp
  | cons o l ih =>
    cases i with
    | zero => rw [List.modify_zero_cons, List.filterMap_cons, List.filterMap_cons, kept]
    | succ i => rw [List.modify_succ_cons, List.filterMap_cons, List.filterMap_cons, ih]

theorem contents_erase (p : Pool α) {i : ℕ} {s : Shared α} (shared : p.shared? i = some s) :
    p.contents.Perm (s.content :: (p.erase i).contents) := by
  obtain ⟨lt, at_i⟩ := List.getElem?_eq_some_iff.mp (shared?_eq_some shared)
  let others := (p.places.toList.eraseIdx i).filterMap fun o => o.map Shared.content
  have before : (s.content :: others).Perm p.contents := by
    have perm := (List.getElem_cons_eraseIdx_perm lt).filterMap fun o => o.map Shared.content
    rwa [at_i] at perm
  have after : (p.erase i).contents.Perm others := by
    rw [contents, erase, Array.toList_setIfInBounds]
    exact (List.set_perm_cons_eraseIdx lt none).filterMap _
  exact before.symm.trans (after.symm.cons _)

theorem contents_retain (p : Pool α) (i : ℕ) : (p.retain i).contents = p.contents :=
  contents_modify p i fun _ => rfl

theorem contents_leave (p : Pool α) (i : ℕ) : (p.leave i).contents = p.contents :=
  contents_modify p i fun _ => rfl

/-- What comes out of a pool is missing from it afterwards. -/
theorem contents_release (p : Pool α) (i : ℕ) :
    p.contents.Perm ((p.release i).2.toList ++ (p.release i).1.contents) := by
  unfold release
  split
  · exact List.Perm.refl _
  · rename_i s shared
    split
    · exact p.contents_erase shared
    · exact List.Perm.of_eq (p.contents_leave i).symm

end Pool

namespace Heap

open Texts (Held)

variable {h h' h'' : Heap} {hs rs : List TextRef} {r : TextRef} {vs : List Stored}

/-- The handles that arrays hold. -/
def inner (h : Heap) : List TextRef := h.arrays.contents.flatMap Table.handles

/-- The handles that are out on a heap are those of a list. -/
def Held (h : Heap) (hs : List TextRef) : Prop := Texts.Held h.texts (hs ++ h.inner)

theorem Held.perm (held : h.Held hs) (perm : hs.Perm rs) : h.Held rs :=
  Texts.Held.perm held (perm.append_right _)

/-- From one heap to another one with some handles out, which have the strings that they had. -/
structure Keeps (h h' : Heap) (hs : List TextRef) : Prop where
  held : h'.Held hs
  kept : ∀ r ∈ hs, h'.bytes r = h.bytes r

theorem Keeps.trans (first : Keeps h h' hs) (later : Keeps h' h'' rs) (sub : rs ⊆ hs) :
    Keeps h h'' rs :=
  ⟨later.held, fun r mem => (later.kept r mem).trans (first.kept r (sub mem))⟩

theorem Keeps.perm (keeps : Keeps h h' hs) (perm : hs.Perm rs) : Keeps h h' rs :=
  ⟨keeps.held.perm perm, fun r mem => keeps.kept r (perm.mem_iff.mpr mem)⟩

theorem Held.retainText (held : h.Held hs) (mem : r ∈ hs) : Keeps h (h.retainText r) (r :: hs) :=
  ⟨Texts.Held.share held (List.mem_append_left _ mem), fun _ _ => congrArg Buffer.content Texts.buffer_share⟩

theorem Held.releaseText (held : h.Held (r :: hs)) : Keeps h (h.releaseText r) hs :=
  ⟨Texts.Held.drop held, fun _ mem =>
    congrArg Buffer.content (Texts.Held.buffer_drop held (List.mem_append_left _ mem))⟩

theorem Held.releaseTexts (held : h.Held (rs ++ hs)) : Keeps h (h.releaseTexts rs) hs := by
  induction rs generalizing h with
  | nil => exact ⟨held, fun _ _ => rfl⟩
  | cons r rs ih =>
    have first : Keeps h (h.releaseText r) (rs ++ hs) := Held.releaseText held
    exact first.trans (ih first.held) (List.subset_append_right _ _)

/-- The handles that a freed array held, beside those that are held afterwards. -/
theorem inner_release (h : Heap) (a : ArrayRef) :
    let released := h.arrays.release a.place
    h.inner.Perm (released.2.toList.flatMap Table.handles ++
      inner { h with arrays := released.1 }) := by
  intro released
  rw [inner, inner, ← List.flatMap_append]
  exact (h.arrays.contents_release a.place).flatMap_right _

theorem Held.releaseAll (held : h.Held (vs.flatMap Value.handles ++ hs)) :
    Keeps h (h.releaseAll vs) hs := by
  fun_induction Heap.releaseAll h vs with
  | case1 => exact ⟨held, fun _ _ => rfl⟩
  | case2 h s vs ih =>
    have first : Keeps h (h.releaseText s) (vs.flatMap Value.handles ++ hs) :=
      Held.releaseText held
    exact first.trans (ih first.held) (List.subset_append_right _ _)
  | case3 h s n vs ih =>
    have first : Keeps h (h.releaseText s) (vs.flatMap Value.handles ++ hs) :=
      Held.releaseText held
    exact first.trans (ih first.held) (List.subset_append_right _ _)
  | case4 h a vs arrays t freed ih =>
    have inner := h.inner_release a
    rw [freed] at inner
    have held' : Heap.Held { h with arrays := arrays }
        (t.heldKeys ++ ((t.heldValues ++ vs).flatMap Value.handles ++ hs)) := by
      refine Texts.Held.perm held (List.perm_iff_count.mpr fun r => ?_)
      have inner_count := inner.count_eq r
      have table_count := t.handles_perm.count_eq r
      have none : (Value.array a : Stored).handles = [] := rfl
      simp only [List.flatMap_cons, List.flatMap_append, List.count_append, none, List.nil_append,
        Option.toList_some, List.flatMap_nil, List.append_nil] at inner_count table_count ⊢
      omega
    have first := Held.releaseTexts held'
    have later := first.trans (ih first.held) (List.subset_append_right _ _)
    exact ⟨later.held, later.kept⟩
  | case5 h a vs arrays freed ih =>
    have inner := h.inner_release a
    rw [freed] at inner
    have later := ih (Texts.Held.perm held (inner.append_left _))
    exact ⟨later.held, later.kept⟩
  | case6 _ _ ih => exact ih held
  | case7 _ _ _ ih | case8 _ _ _ ih | case9 _ _ _ ih | case10 _ _ _ ih | case11 _ _ _ ih =>
    exact ih held

theorem Held.release {v : Stored} (held : h.Held (v.handles ++ hs)) : Keeps h (h.release v) hs := by
  refine Held.releaseAll ?_
  rwa [List.flatMap_singleton]

theorem Held.discard {t : Elements} (held : h.Held (t.handles ++ hs)) :
    Keeps h (h.discard t) hs := by
  have perm := t.handles_perm.append_right hs
  rw [List.append_assoc] at perm
  have first := Held.releaseTexts (held.perm perm)
  exact first.trans (Held.releaseAll first.held) (List.subset_append_right _ _)

theorem Held.addArray (held : h.Held hs) : Keeps h h.addArray.1 hs := by
  have inner : h.addArray.1.inner = h.inner := by
    rw [Heap.inner, Heap.addArray, Pool.contents_add, List.flatMap_append]
    exact List.append_nil _
  exact ⟨by rw [Held, inner]; exact held, fun _ _ => rfl⟩

/-- A value by content, which does not tell arrays apart. -/
def content (h : Heap) (v : Stored) : Content := v.map h.bytes fun _ => ()

theorem Held.retain {v : Stored} (held : h.Held hs) (mem : v.handles ⊆ hs) :
    Keeps h (h.retain v) (v.handles ++ hs) := by
  cases v with
  | string s => exact held.retainText (mem List.mem_cons_self)
  | numericString s n => exact held.retainText (mem List.mem_cons_self)
  | array a =>
    have inner : (h.retain (.array a)).inner = h.inner :=
      congrArg (List.flatMap Table.handles) (Pool.contents_retain _ _)
    exact ⟨by rw [Held, inner]; exact held, fun _ _ => rfl⟩
  | _ => exact ⟨held, fun _ _ => rfl⟩

/-- Taking handles one after another, each on what is held already. -/
theorem Held.foldl {α : Type} {f : Heap → α → Heap} {g : α → List TextRef} {as : List α}
    (take : ∀ {h : Heap} {hs : List TextRef} {a : α}, h.Held hs → g a ⊆ hs →
      Keeps h (f h a) (g a ++ hs))
    (held : h.Held hs) (mem : as.flatMap g ⊆ hs) :
    Keeps h (as.foldl f h) (as.flatMap g ++ hs) := by
  induction as generalizing h hs with
  | nil => exact ⟨held, fun _ _ => rfl⟩
  | cons a as ih =>
    rw [List.flatMap_cons, List.append_subset] at mem
    have first := take held mem.1
    have later := ih first.held (List.subset_append_of_subset_right _ mem.2)
    rw [List.flatMap_cons, List.append_assoc]
    refine (first.trans later ?_).perm (List.perm_append_comm_assoc _ _ _)
    exact List.append_subset.mpr
      ⟨List.subset_append_of_subset_right _ mem.2, List.Subset.refl _⟩

theorem Held.duplicate {t : Elements} (held : h.Held hs) (mem : t.handles ⊆ hs) :
    Keeps h (h.duplicate t) (t.handles ++ hs) := by
  have perm := t.handles_perm
  have keys_mem : t.heldKeys.flatMap (fun r => [r]) ⊆ hs := by
    rw [List.flatMap_singleton']
    exact fun r key => mem (perm.mem_iff.mpr (List.mem_append_left _ key))
  have keys := Held.foldl (f := Heap.retainText)
    (fun held mem => held.retainText (mem List.mem_cons_self)) held keys_mem
  have values_mem : t.heldValues.flatMap Value.handles ⊆ t.heldKeys.flatMap (fun r => [r]) ++ hs :=
    fun r value => List.mem_append_right _ (mem (perm.mem_iff.mpr (List.mem_append_right _ value)))
  have values := Held.foldl (f := Heap.retain) Held.retain keys.held values_mem
  have all := keys.trans values (List.append_subset.mpr ⟨values_mem, List.Subset.refl _⟩)
  rw [List.flatMap_singleton'] at all
  refine all.perm ?_
  rw [← List.append_assoc]
  exact ((List.perm_append_comm).trans perm.symm).append_right hs

/-- A value made of handles that are out takes one of its own. -/
theorem Held.hold {v : Value TextRef Unit} (held : h.Held hs) (mem : v.text?.toList ⊆ hs) :
    Keeps h (h.hold v).1 ((h.hold v).2.handles ++ hs) ∧
      h.content (h.hold v).2 = v.map h.bytes id := by
  have handles (a : Unit → ArrayRef) : (v.map id a : Stored).handles = v.text?.toList := by
    cases v <;> rfl
  have content (a : Unit → ArrayRef) : h.content (v.map id a) = v.map h.bytes id := by
    cases v <;> rfl
  unfold Heap.hold
  split
  · rename_i array
    have none : v.text? = none := by
      cases v with
      | array => rfl
      | _ => cases array
    refine ⟨?_, content _⟩
    rw [handles, none]
    exact held.addArray
  · refine ⟨held.retain ?_, content _⟩
    rwa [handles]

theorem bytes_addText (h : Heap) (content : Bytes) :
    (h.addText content).1.bytes (h.addText content).2 = content := by
  rw [Heap.bytes, addText, Texts.bytes, Texts.buffer_create]
  simp [Buffer.ofBytes, Buffer.holding, Buffer.content]

/-- A new string is none that a handle is out on. -/
theorem bytes_addText_of_holders (held : 0 < h.texts.holders r) (content : Bytes) :
    (h.addText content).1.bytes r = h.bytes r := by
  refine congrArg Buffer.content (Texts.buffer_create_ne ?_)
  rintro rfl
  have none : h.texts.holders (h.addText content).2 = 0 := by
    simp [Texts.holders, Pool.holders, addText, Texts.create, Pool.shared?_fresh]
  exact Nat.ne_of_gt held none

/-- A new value has the content that it is made of, and takes its handles beside those that are out. -/
theorem Held.add (held : h.Held hs) (v : Content) :
    (h.add v).1.Held ((h.add v).2.handles ++ hs) ∧
      (∀ r ∈ hs, (h.add v).1.bytes r = h.bytes r) ∧ (h.add v).1.content (h.add v).2 = v := by
  have text (bytes : Bytes) : (h.addText bytes).1.Held ((h.addText bytes).2 :: hs) ∧
      (∀ r ∈ hs, (h.addText bytes).1.bytes r = h.bytes r) ∧
      (h.addText bytes).1.bytes (h.addText bytes).2 = bytes := by
    refine ⟨Texts.Held.create held, fun r mem => ?_, h.bytes_addText bytes⟩
    refine h.bytes_addText_of_holders ?_ bytes
    rw [held r]
    exact List.count_pos_iff.mpr (List.mem_append_left _ mem)
  cases v with
  | string bytes =>
    obtain ⟨out, kept, new⟩ := text bytes
    exact ⟨out, kept, congrArg Value.string new⟩
  | numericString bytes n =>
    obtain ⟨out, kept, new⟩ := text bytes
    exact ⟨out, kept, congrArg (Value.numericString · n) new⟩
  | array => exact ⟨held.addArray.held, held.addArray.kept, rfl⟩
  | _ => exact ⟨held, fun _ _ => rfl, rfl⟩

end Heap

end AwkCore
