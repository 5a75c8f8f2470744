import AwkCore.Proofs.Texts.Owners

/-!
# Handles beside a bank

Handles that are out on the strings of a bank but not in its registers might as well be in registers
behind its own, which no action names. So an action keeps account of them too, and leaves their buffers
as they are.
-/
namespace AwkCore

/-- An action on registers that have other numbers. -/
def Bank.Action.renamed (f : ℕ → ℕ) : Action → Action
  | create i b => create (f i) b
  | share i j => share (f i) (f j)
  | drop i => drop (f i)
  | swap i j => swap (f i) (f j)
  | update i offset bytes => update (f i) offset bytes
  | push i bytes => push (f i) bytes
  | copyFrom i j => copyFrom (f i) (f j)
  | extend i j => extend (f i) (f j)

theorem Bank.Action.writes_renamed (f : ℕ → ℕ) (a : Action) :
    (a.renamed f).writes = a.writes.map f := by
  cases a <;> rfl

namespace Bank

open Texts (Held)

variable {b : Bank} {others : List TextRef} {i j : ℕ} {r : TextRef}

/-- A bank with some handles in registers behind its own. -/
def beside (b : Bank) (others : List TextRef) : Bank :=
  ⟨b.texts, b.registers ++ (others.map some).toArray⟩

/-- The number of a register when others are behind. A number without a register stays without one. -/
def outer (b : Bank) (others : List TextRef) (i : ℕ) : ℕ :=
  if i < b.registers.size then i else i + others.length

theorem handles_beside : (b.beside others).handles = b.handles ++ others := by
  simp [handles, beside, List.filterMap_append, List.filterMap_map]

theorem outer_injective : Function.Injective (b.outer others) := by
  intro i j same
  unfold outer at same
  split at same <;> split at same <;> omega

theorem outer_lt_iff : b.outer others i < (b.beside others).registers.size ↔
    i < b.registers.size := by
  have size : (b.beside others).registers.size = b.registers.size + others.length := by
    simp [beside]
  rw [size, outer]
  split <;> omega

theorem handle?_outer : (b.beside others).handle? (b.outer others i) = b.handle? i := by
  by_cases hi : i < b.registers.size
  · simp [handle?, outer, beside, hi, Array.getElem?_append]
  · rw [handle?, handle?, Array.getElem?_eq_none (Nat.not_lt.mp (mt outer_lt_iff.mp hi)),
      Array.getElem?_eq_none (Nat.not_lt.mp hi)]

theorem place_outer (texts : Texts) (o : Option TextRef) :
    (b.beside others).place texts (b.outer others i) o = (b.place texts i o).beside others := by
  by_cases hi : i < b.registers.size
  · simp [place, beside, outer, hi]
  · rw [place, place, Array.setIfInBounds_eq_of_size_le (Nat.not_lt.mp (mt outer_lt_iff.mp hi)),
      Array.setIfInBounds_eq_of_size_le (Nat.not_lt.mp hi)]
    rfl

theorem dropFrom_outer (texts : Texts) :
    (b.beside others).dropFrom texts (b.outer others i) = b.dropFrom texts i := by
  rw [dropFrom, dropFrom, handle?_outer]

theorem put_outer (texts : Texts) (r : TextRef) :
    (b.beside others).put texts (b.outer others i) r = (b.put texts i r).beside others := by
  unfold put
  by_cases hi : i < b.registers.size
  · rw [if_pos (outer_lt_iff.mpr hi), if_pos hi, dropFrom_outer, place_outer]
  · rw [if_neg (mt outer_lt_iff.mp hi), if_neg hi]

theorem change_outer (f : TextRef → Texts × TextRef) :
    (b.beside others).change (b.outer others i) f = (b.change i f).beside others := by
  unfold change
  rw [handle?_outer]
  cases b.handle? i with
  | none => rfl
  | some r => exact place_outer _ _

theorem combine_outer (f : Texts → TextRef → TextRef → Texts × TextRef) :
    (b.beside others).combine (b.outer others i) (b.outer others j) f =
      (b.combine i j f).beside others := by
  unfold combine
  rw [handle?_outer]
  cases b.handle? j with
  | none => rfl
  | some source =>
    by_cases same : i = j
    · simp only [same, if_true]
      exact change_outer _
    · simp only [outer_injective.eq_iff, if_neg same]
      exact change_outer _

theorem swap_outer :
    (b.beside others).apply (.swap (b.outer others i) (b.outer others j)) =
      (b.apply (.swap i j)).beside others := by
  refine congrArg (Bank.mk b.texts) ?_
  change (b.beside others).registers.swapIfInBounds _ _ =
    b.registers.swapIfInBounds i j ++ (others.map some).toArray
  rw [Array.swapIfInBounds_def, Array.swapIfInBounds_def]
  simp only [outer_lt_iff]
  split
  · split
    · rename_i hi hj
      simp [beside, outer, hi, hj, Array.swap]
    · rfl
  · rfl

/-- Other handles make no difference to an action. -/
theorem apply_outer (a : Action) : (b.beside others).apply (a.renamed (b.outer others)) =
    (b.apply a).beside others := by
  cases a with
  | create i buffer => exact put_outer _ _
  | share i j =>
    simp only [Action.renamed, apply, handle?_outer]
    cases b.handle? j with
    | none => rfl
    | some r => exact put_outer _ _
  | drop i =>
    simp only [Action.renamed, apply, dropFrom_outer]
    exact place_outer _ _
  | swap i j => exact swap_outer
  | update i offset bytes => exact change_outer fun r => b.texts.update r offset bytes
  | push i bytes => exact change_outer fun r => b.texts.push r bytes
  | copyFrom i j => exact combine_outer Texts.copyFrom
  | extend i j => exact combine_outer Texts.extend

/-- Owners that have the strings of a bank. Two registers have one origin if they have one handle. -/
def owners (b : Bank) : Owners :=
  ⟨b.registers.map fun o => o.map fun r => ⟨b.texts.bytes r, r.place⟩, b.texts.fresh⟩

theorem owned?_owners (i : ℕ) :
    b.owners.owned? i = (b.handle? i).map fun r => ⟨b.texts.bytes r, r.place⟩ := by
  rw [Owners.owned?, owners, Array.getElem?_map, handle?]
  cases b.registers[i]? <;> rfl

/-- A handle that is out is on an older buffer than the next one. -/
theorem lt_fresh {t : Texts} {hs : List TextRef} (held : Held t hs) (mem : r ∈ hs) :
    r.place < t.fresh := by
  obtain ⟨s, shared, _⟩ := held.shared mem
  by_contra beyond
  rw [Pool.shared?, Array.getElem?_eq_none (Nat.not_lt.mp beyond)] at shared
  cases shared

theorem agrees_owners (held : Held b.texts b.handles) : Agrees b b.owners := by
  constructor
  case held => exact held
  case size_eq => simp [owners]
  case bytes_eq =>
    intro i
    rw [owned?_owners, Option.map_map]
    rfl
  case same_iff =>
    intro i j
    simp only [owned?_owners, Option.map_map, Function.comp_def]
    have place_injective : Function.Injective fun r : TextRef => r.place := by
      rintro ⟨p⟩ ⟨q⟩ same
      exact congrArg _ same
    exact (Option.map_injective place_injective).eq_iff.symm
  case origin_lt =>
    intro i x owned
    rw [owned?_owners] at owned
    obtain ⟨r, at_i, rfl⟩ := Option.map_eq_some_iff.mp owned
    exact lt_fresh held (mem_handles at_i)

theorem getElem?_others {n : ℕ} (at_n : others[n]? = some r) :
    (b.beside others).handle? (b.registers.size + n) = some r := by
  rw [handle?, beside, Array.getElem?_append_right (Nat.le_add_right _ _), Nat.add_sub_cancel_left]
  simp [at_n]

/-- No action names a register that is behind. -/
theorem notMem_writes_outer (a : Action) {n : ℕ} (lt : n < others.length) :
    b.registers.size + n ∉ (a.renamed (b.outer others)).writes := by
  rw [Action.writes_renamed]
  intro mem
  obtain ⟨i, _, named⟩ := List.mem_map.mp mem
  unfold outer at named
  split at named <;> omega

/-- An action changes the handles of the registers only. -/
theorem apply_beside (held : Held b.texts (b.handles ++ others)) (a : Action) :
    Held (b.apply a).texts ((b.apply a).handles ++ others) ∧
      ∀ r ∈ others, (b.apply a).texts.buffer r = b.texts.buffer r := by
  have agrees : Agrees (b.beside others) (b.beside others).owners :=
    agrees_owners (by rwa [handles_beside])
  obtain ⟨after, keeps⟩ := agrees.apply (a.renamed (b.outer others))
  rw [apply_outer] at after keeps
  have held_after := after.held
  rw [handles_beside] at held_after
  refine ⟨held_after, fun r mem => ?_⟩
  obtain ⟨n, at_n⟩ := List.mem_iff_getElem?.mp mem
  have lt := (List.getElem?_eq_some_iff.mp at_n).1
  exact (keeps _ (notMem_writes_outer a lt)).2 r (getElem?_others at_n)

/-- Putting a new handle on a string that is out into a register. -/
theorem put_beside (held : Held b.texts (b.handles ++ others)) (mem : r ∈ b.handles ++ others)
    (i : ℕ) :
    let after := b.put (b.texts.share r) i r
    Held after.texts (after.handles ++ others) ∧
      ∀ s ∈ others, after.texts.buffer s = b.texts.buffer s := by
  intro after
  by_cases hi : i < b.registers.size
  · rw [← handles_beside] at held mem
    obtain ⟨moved, _⟩ := Moved.put (b := b.beside others) (outer_lt_iff.mpr hi) (held.share mem)
      fun s _ => Texts.buffer_share
    rw [put_outer] at moved
    have held_after := moved.held
    rw [handles_beside] at held_after
    refine ⟨held_after, fun s other => ?_⟩
    obtain ⟨n, at_n⟩ := List.mem_iff_getElem?.mp other
    have ne : b.registers.size + n ≠ b.outer others i := by
      rw [outer, if_pos hi]
      omega
    exact moved.kept s (mem_others ne (getElem?_others at_n))
  · have same : after = b := if_neg hi
    rw [same]
    exact ⟨held, fun _ _ => rfl⟩

end Bank

end AwkCore
