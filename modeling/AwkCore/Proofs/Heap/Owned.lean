import AwkCore.Heap.Deeds
import AwkCore.Proofs.Heap.Shown

/-!
# Handles on arrays

The handles on the arrays of a heap are those that tables hold as values and those that are out. When
values are let go of, an array with another handle out on it stays, with the table that it has.
-/
namespace AwkCore

namespace Pool

variable {α : Type} {p : Pool α} {i j : ℕ} {a b : α}

theorem shared?_of_holders (held : 0 < p.holders i) :
    ∃ s : Shared α, p.shared? i = some s ∧ s.holders = p.holders i := by
  unfold holders at held ⊢
  cases found : p.shared? i with
  | none => simp [found] at held
  | some s => exact ⟨s, rfl, rfl⟩

theorem exists_get? (held : 0 < p.holders i) : ∃ a, p.get? i = some a := by
  obtain ⟨s, shared, _⟩ := shared?_of_holders held
  exact ⟨s.content, by rw [get?, shared, Option.map_some]⟩

theorem holders_fresh : p.holders p.fresh = 0 := by rw [holders, shared?_fresh, Option.elim_none]

theorem holders_add (j : ℕ) : (p.add a).holders j = p.holders j + if p.fresh = j then 1 else 0 := by
  rw [holders, shared?_add]
  by_cases new : p.fresh = j
  · rw [if_pos new.symm, if_pos new, ← new, holders_fresh]
    rfl
  · rw [if_neg (Ne.symm new), if_neg new]
    rfl

theorem holders_retain (held : 0 < p.holders i) (j : ℕ) :
    (p.retain i).holders j = p.holders j + if i = j then 1 else 0 := by
  obtain ⟨s, shared, _⟩ := shared?_of_holders held
  rw [holders, retain, shared?_modify, holders]
  by_cases same : i = j
  · subst same
    simp [shared]
  · simp [same]

theorem holders_release (held : 0 < p.holders i) (j : ℕ) :
    (p.release i).1.holders j + (if i = j then 1 else 0) = p.holders j := by
  obtain ⟨s, shared, count⟩ := shared?_of_holders held
  rw [holders, shared?_release, holders]
  by_cases same : i = j
  · subst same
    rw [if_pos rfl, if_pos rfl, shared, Option.bind_some, Option.elim_some]
    split
    · rw [Option.elim_none]
      omega
    · show s.holders - 1 + 1 = s.holders
      omega
  · simp [same]

theorem holders_set (j : ℕ) : (p.set i a).holders j = p.holders j := by
  rw [holders, set, shared?_modify, holders]
  split
  · cases p.shared? j <;> rfl
  · rfl

theorem get?_add (j : ℕ) : (p.add a).get? j = if p.fresh = j then some a else p.get? j := by
  rw [get?, shared?_add]
  by_cases new : p.fresh = j
  · rw [if_pos new.symm, if_pos new, Option.map_some]
  · rw [if_neg (Ne.symm new), if_neg new, get?]

theorem get?_retain (j : ℕ) : (p.retain i).get? j = p.get? j := by
  rw [get?, retain, shared?_modify, get?]
  split
  · cases p.shared? j <;> rfl
  · rfl

/-- What is still there after a release was there before. -/
theorem get?_release (there : (p.release i).1.get? j = some a) : p.get? j = some a := by
  rw [get?, shared?_release] at there
  rw [get?]
  split at there
  · obtain ⟨s, kept, rfl⟩ := Option.map_eq_some_iff.mp there
    obtain ⟨u, shared, last⟩ := Option.bind_eq_some_iff.mp kept
    obtain ⟨_, left⟩ := Option.ite_none_left_eq_some.mp last
    rw [shared, ← Option.some.inj left, Option.map_some]
  · exact there

theorem get?_release_freed (freed : (p.release i).2 = some a) : (p.release i).1.get? i = none := by
  rw [get?, shared?_release, if_pos rfl, Option.map_eq_none_iff]
  unfold release at freed
  cases shared : p.shared? i with
  | none => rfl
  | some s =>
    rw [shared] at freed
    simp only at freed
    split at freed
    · rw [Option.bind_some, if_pos (by assumption)]
    · cases freed

theorem get?_set (j : ℕ) :
    (p.set i a).get? j = if i = j then (p.get? j).map fun _ => a else p.get? j := by
  rw [get?, set, shared?_modify, get?]
  split
  · cases p.shared? j <;> rfl
  · rfl

theorem contents_set (held : p.get? i = some b) :
    ∃ rest, p.contents.Perm (b :: rest) ∧ (p.set i a).contents.Perm (a :: rest) := by
  obtain ⟨s, shared, rfl⟩ := Option.map_eq_some_iff.mp held
  have shared' : (p.set i a).shared? i = some ⟨a, s.holders⟩ := by
    rw [set, shared?_modify, if_pos rfl, shared, Option.map_some]
  have same : (p.set i a).erase i = p.erase i := by
    simp only [erase, set]
    congr 1
    apply Array.ext_getElem?
    intro j
    simp only [Array.getElem?_setIfInBounds, Array.getElem?_modify, Array.size_modify]
    split <;> rfl
  exact ⟨(p.erase i).contents, p.contents_erase shared, same ▸ (p.set i a).contents_erase shared'⟩

/-- Another content that takes and gives: what was out or held inside before is so afterwards. -/
theorem trade_perm {β : Type} [DecidableEq β] {f : α → List β} {taken given out : List β}
    (held : p.get? i = some b) (trade : (given ++ f a).Perm (taken ++ f b)) :
    (given ++ out ++ (p.set i a).contents.flatMap f).Perm
      (taken ++ out ++ p.contents.flatMap f) := by
  obtain ⟨rest, before, after⟩ := contents_set (a := a) held
  rw [List.perm_iff_count]
  intro x
  have trade := trade.count_eq x
  have inner := (before.flatMap_right f).count_eq x
  have outer := (after.flatMap_right f).count_eq x
  simp only [List.flatMap_cons, List.count_append] at trade inner outer ⊢
  omega

/-- A release after a change does what the change does after a release. -/
theorem release_set (i j : ℕ) (a : α) : (p.set i a).release j =
    ((p.release j).1.set i a, (p.release j).2.map fun b => if i = j then a else b) := by
  have erased : (p.set i a).erase j = (p.erase j).set i a := by
    simp only [erase, set]
    congr 1
    apply Array.ext_getElem?
    intro k
    simp only [Array.getElem?_setIfInBounds, Array.getElem?_modify, Array.size_modify]
    split <;> split <;> simp_all
  have left : (p.set i a).leave j = (p.leave j).set i a := by
    simp only [leave, set]
    congr 1
    apply Array.ext_getElem?
    intro k
    simp only [Array.getElem?_modify]
    split <;> split <;> simp [Option.map_map, Function.comp_def]
  have shared : (p.set i a).shared? j =
      (p.shared? j).map fun s => if i = j then { s with content := a } else s := by
    rw [set, shared?_modify]
    split <;> simp
  unfold release
  rw [shared]
  cases p.shared? j with
  | none => rfl
  | some s =>
    have holders : (if i = j then { s with content := a } else s).holders = s.holders := by
      split <;> rfl
    have content : (if i = j then { s with content := a } else s).content =
        if i = j then a else s.content := by
      split <;> rfl
    simp only [Option.map_some, holders, content]
    split
    · rw [erased, Option.map_some]
    · rw [left, Option.map_none]

end Pool

/-- The handle of a value on an array, if it has one. -/
def Value.arrays : Stored → List ArrayRef
  | .array a => [a]
  | _ => []

def Table.arrays (t : Elements) : List ArrayRef := t.slots.toList.flatMap fun s => s.value.arrays

theorem Table.heldValues_arrays (t : Elements) : t.heldValues.flatMap Value.arrays = t.arrays := by
  rw [heldValues, List.flatMap_map, arrays]

theorem ArrayRef.place_eq {a b : ArrayRef} : a.place = b.place ↔ a = b := by
  cases a
  cases b
  simp

namespace Heap

variable {h h' : Heap} {as taken given : List ArrayRef} {a b : ArrayRef} {t t' : Elements}
  {vs : List Stored} {v : Stored}

/-- The handles on arrays that arrays hold. -/
def nested (h : Heap) : List ArrayRef := h.arrays.contents.flatMap Table.arrays

/-- The handles that are out on the arrays of a heap are those of a list. -/
def Owned (h : Heap) (as : List ArrayRef) : Prop :=
  ∀ a : ArrayRef, Pool.holders h.arrays a.place = (as ++ h.nested).count a

theorem Owned.perm {bs : List ArrayRef} (owned : h.Owned as) (perm : as.Perm bs) : h.Owned bs :=
  fun a => (owned a).trans ((perm.append_right _).count_eq a)

theorem Owned.holders_pos (owned : h.Owned as) (mem : a ∈ as ++ h.nested) :
    0 < Pool.holders h.arrays a.place := by
  rw [owned a]
  exact List.count_pos_iff.mpr mem

theorem Owned.there (owned : h.Owned as) (mem : a ∈ as) : ∃ t, h.arrays.get? a.place = some t :=
  Pool.exists_get? (owned.holders_pos (List.mem_append_left _ mem))

theorem Owned.retain (owned : h.Owned as) (alive : ∀ a ∈ v.arrays, 0 < Pool.holders h.arrays a.place) :
    (h.retain v).Owned (v.arrays ++ as) := by
  cases v with
  | array a =>
    have nested : (h.retain (.array a)).nested = h.nested :=
      congrArg (List.flatMap Table.arrays) (Pool.contents_retain _ _)
    intro b
    have count := Pool.holders_retain (alive a List.mem_cons_self) b.place
    rw [nested]
    refine count.trans ?_
    rw [owned b]
    simp [Value.arrays, ArrayRef.place_eq, List.count_cons]
  | _ => exact owned

/-- A handle that is let go of. The handles of a freed array come out with it. -/
theorem Owned.releaseArray {arrays : Pool Elements} {freed : Option Elements}
    (owned : h.Owned (a :: as)) (released : h.arrays.release a.place = (arrays, freed)) :
    Owned { h with arrays := arrays } (freed.toList.flatMap Table.arrays ++ as) := by
  intro b
  have contents := h.arrays.contents_release a.place
  have count := Pool.holders_release (owned.holders_pos List.mem_cons_self) b.place
  rw [released] at contents count
  have inner := (contents.flatMap_right Table.arrays).count_eq b
  have before := owned b
  simp only [nested, ArrayRef.place_eq, List.cons_append, List.count_cons, List.flatMap_append,
    List.count_append, beq_iff_eq] at count before inner ⊢
  omega

theorem Owned.releaseAll (owned : h.Owned (vs.flatMap Value.arrays ++ as)) :
    (h.releaseAll vs).Owned as := by
  fun_induction Heap.releaseAll h vs with
  | case1 => exact owned
  | case4 h a vs arrays t freed ih =>
    have out : h.Owned (a :: (vs.flatMap Value.arrays ++ as)) := owned
    have released := out.releaseArray freed
    rw [Option.toList_some, List.flatMap_singleton, ← t.heldValues_arrays, ← List.append_assoc,
      ← List.flatMap_append] at released
    exact ih released
  | case5 h a vs arrays kept ih =>
    have out : h.Owned (a :: (vs.flatMap Value.arrays ++ as)) := owned
    exact ih (out.releaseArray kept)
  | case3 h s n vs ih => exact ih owned
  | case6 h vs ih => exact ih owned
  | case2 h _ vs ih | case7 h _ vs ih | case8 h _ vs ih | case9 h _ vs ih | case10 h _ vs ih
  | case11 h _ vs ih => exact ih owned

theorem Owned.addTable (owned : h.Owned (t.arrays ++ as)) :
    (h.addTable t).1.Owned ((h.addTable t).2 :: as) := by
  intro b
  have count := Pool.holders_add (p := h.arrays) (a := t) b.place
  have new : h.arrays.fresh = b.place ↔ (h.addTable t).2 = b := ArrayRef.place_eq (a := ⟨_⟩)
  have nested : (h.addTable t).1.nested = h.nested ++ t.arrays := by
    simp [Heap.nested, Heap.addTable, Pool.contents_add]
  rw [owned b] at count
  refine count.trans ?_
  simp only [nested, new, List.cons_append, List.count_cons, List.count_append, beq_iff_eq]
  omega

/-- A table takes handles that were out and gives some of its own instead. -/
theorem Owned.setTable (owned : h.Owned (taken ++ as)) (there : h.arrays.get? a.place = some t)
    (perm : (given ++ t'.arrays).Perm (taken ++ t.arrays)) :
    (h.setTable a t').Owned (given ++ as) := by
  intro b
  have holders : Pool.holders (h.setTable a t').arrays b.place = Pool.holders h.arrays b.place :=
    Pool.holders_set _
  rw [holders, owned b]
  exact ((Pool.trade_perm there perm).count_eq b).symm

theorem releaseAll_freed {arrays : Pool Elements}
    (freed : h.arrays.release a.place = (arrays, some t)) : h.releaseAll (.array a :: vs) =
      ({ h with arrays := arrays }.releaseTexts t.heldKeys).releaseAll (t.heldValues ++ vs) := by
  rw [Heap.releaseAll]
  split
  · rename_i arrays' t' freed'
    obtain ⟨rfl, same⟩ := Prod.mk.inj (freed'.symm.trans freed)
    obtain rfl := Option.some.inj same
    rfl
  · rename_i kept
    cases kept.symm.trans freed

theorem releaseAll_kept {arrays : Pool Elements} (kept : h.arrays.release a.place = (arrays, none)) :
    h.releaseAll (.array a :: vs) = Heap.releaseAll { h with arrays := arrays } vs := by
  rw [Heap.releaseAll]
  split
  · rename_i freed
    cases freed.symm.trans kept
  · rename_i arrays' kept'
    obtain ⟨rfl, _⟩ := Prod.mk.inj (kept'.symm.trans kept)
    rfl

/-- The array that is freed by its last handle is none that another handle is out on. -/
theorem Owned.place_ne {arrays : Pool Elements} (owned : h.Owned (b :: as)) (mem : a ∈ as)
    (freed : h.arrays.release b.place = (arrays, some t)) : a.place ≠ b.place := by
  intro same
  obtain ⟨u, there⟩ := (owned.releaseArray freed).there (List.mem_append_right _ mem)
  have gone := Pool.get?_release_freed (congrArg Prod.snd freed)
  rw [freed, ← same] at gone
  cases gone.symm.trans there

/-- An array with a handle out keeps its table while others are let go of. -/
theorem Owned.releaseAll_setTable (owned : (h.setTable a t').Owned (vs.flatMap Value.arrays ++ as))
    (mem : a ∈ as) : (h.setTable a t').releaseAll vs = (h.releaseAll vs).setTable a t' := by
  fun_induction Heap.releaseAll h vs with
  | case1 => rw [Heap.releaseAll]
  | case4 h b vs arrays u freed ih =>
    have later := Pool.release_set (p := h.arrays) a.place b.place t'
    rw [freed, Option.map_some] at later
    have out : (h.setTable a t').Owned (b :: (vs.flatMap Value.arrays ++ as)) := owned
    rw [if_neg (out.place_ne (List.mem_append_right _ mem) later)] at later
    have released := out.releaseArray later
    rw [Option.toList_some, List.flatMap_singleton, ← u.heldValues_arrays, ← List.append_assoc,
      ← List.flatMap_append] at released
    rw [releaseAll_freed later]
    exact ih released
  | case5 h b vs arrays kept ih =>
    have later := Pool.release_set (p := h.arrays) a.place b.place t'
    rw [kept, Option.map_none] at later
    have out : (h.setTable a t').Owned (b :: (vs.flatMap Value.arrays ++ as)) := owned
    rw [releaseAll_kept later]
    exact ih (out.releaseArray later)
  | case3 h s n vs ih =>
    rw [Heap.releaseAll]
    exact ih owned
  | case6 h vs ih =>
    rw [Heap.releaseAll]
    exact ih owned
  | case2 h _ vs ih | case7 h _ vs ih | case8 h _ vs ih | case9 h _ vs ih | case10 h _ vs ih
  | case11 h _ vs ih =>
    rw [Heap.releaseAll]
    exact ih owned

end Heap

end AwkCore
