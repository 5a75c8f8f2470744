import AwkCore.Proofs.Table.Dictionary

/-!
# Searches come to an end

`Searches` and `Seeks` follow a walk over an index without a bound on their steps, and list the places
that they look at. On every table that a run of actions leaves, and at every stage of a rebuild, both
come to an end within `size + 7` places: a walk comes to each place by then, and one of them is
empty. So `Table.reach` cuts no search short.
-/
namespace AwkCore

theorem Mark.ofCell_slot {n : ℕ} (few : n + 1 < 2 ^ 31) : ofCell (slot n).cell = slot n := by
  have value : (Int32.ofNat (n + 1)).toInt = (n + 1 : ℕ) := Int32.toInt_ofNat_of_lt few
  have not_empty : Int32.ofNat (n + 1) ≠ 0 := by
    intro zero
    rw [zero, Int32.toInt_zero] at value
    omega
  have not_deleted : Int32.ofNat (n + 1) ≠ -1 := by
    intro minus
    have negative : (-1 : Int32).toInt = -1 := by decide
    rw [minus, negative] at value
    omega
  rw [cell, ofCell, if_neg not_empty, if_neg not_deleted, Int32.toNatClampNeg_ofNat_of_lt few,
    Nat.add_sub_cancel]

namespace Table

variable {κ ν : Type} {view : κ → Bytes} {t : Table κ ν}

/-- A search for a slot, with the places it looks at and its result. It has a next step only where
its place is in the index and the slot named there is in the sequence of slots. -/
inductive Searches (t : Table κ ν) (isHere : Slot κ ν → Bool) :
    Option ℕ → Walk → List ℕ → Probe → Prop
  | empty {reusable : Option ℕ} {w : Walk} (mark : t.index[w.place]? = some .empty) :
    Searches t isHere reusable w [w.place] (.vacant (reusable.getD w.place))
  | found {reusable : Option ℕ} {w : Walk} {n : ℕ} {s : Slot κ ν}
      (mark : t.index[w.place]? = some (.slot n)) (slot : t.slots.get? n = some s)
      (here : isHere s = true) : Searches t isHere reusable w [w.place] (.found w.place n)
  | deleted {reusable : Option ℕ} {w : Walk} {places : List ℕ} {result : Probe}
      (mark : t.index[w.place]? = some .deleted)
      (rest : Searches t isHere (some (reusable.getD w.place)) (w.next t.size) places result) :
    Searches t isHere reusable w (w.place :: places) result
  | other {reusable : Option ℕ} {w : Walk} {n : ℕ} {s : Slot κ ν} {places : List ℕ} {result : Probe}
      (mark : t.index[w.place]? = some (.slot n)) (slot : t.slots.get? n = some s)
      (elsewhere : isHere s = false)
      (rest : Searches t isHere reusable (w.next t.size) places result) :
    Searches t isHere reusable w (w.place :: places) result

/-- A search for an empty place, with the places it looks at and the one it finds. -/
inductive Seeks (index : Array Mark) : Walk → List ℕ → ℕ → Prop
  | here {w : Walk} (mark : index[w.place]? = some .empty) : Seeks index w [w.place] w.place
  | later {w : Walk} {m : Mark} {places : List ℕ} {p : ℕ} (mark : index[w.place]? = some m)
      (full : m ≠ .empty) (rest : Seeks index (w.next index.size) places p) :
    Seeks index w (w.place :: places) p

/-- Where a walk meets an empty place within some steps, a search along it takes no more of them and
finds what the search with as many steps finds. -/
theorem searches_probeFrom {isHere : Slot κ ν → Bool} {reusable : Option ℕ} {w : Walk} {steps : ℕ}
    (named : ∀ p n : ℕ, t.index[p]? = some (.slot n) → ∃ s, t.slots.get? n = some s)
    (inside : w.place < t.size) (ends : Ends t.index w steps) :
    ∃ places, Searches t isHere reusable w places (t.probeFrom isHere reusable w steps) ∧
      places.length ≤ steps := by
  induction steps generalizing reusable w with
  | zero => exact absurd ends not_ends_zero
  | succ steps ih =>
    have next_inside : (w.next t.size).place < t.size := Walk.next_place_lt _ (by omega)
    have later (full : t.index[w.place]? ≠ some .empty) (r : Option ℕ) :
        ∃ places, Searches t isHere r (w.next t.size) places
          (t.probeFrom isHere r (w.next t.size) steps) ∧ places.length ≤ steps :=
      ih next_inside (ends.next full)
    obtain ⟨m, mark⟩ : ∃ m, t.index[w.place]? = some m := ⟨_, Array.getElem?_eq_getElem inside⟩
    rw [probeFrom, mark]
    cases m with
    | empty => exact ⟨[w.place], .empty mark, by simp⟩
    | deleted =>
      obtain ⟨places, rest, length⟩ := later (by simp [mark]) (some (reusable.getD w.place))
      exact ⟨w.place :: places, .deleted mark rest, by simpa using length⟩
    | slot n =>
      obtain ⟨s, slot⟩ := named w.place n mark
      simp only [slot, Option.any_some]
      by_cases here : isHere s = true
      · rw [if_pos here]
        exact ⟨[w.place], .found mark slot here, by simp⟩
      · obtain ⟨places, rest, length⟩ := later (by simp [mark]) reusable
        rw [if_neg here]
        exact ⟨w.place :: places, .other mark slot (by simpa using here) rest, by simpa using length⟩

theorem seeks_emptyPlaceFrom {index : Array Mark} {w : Walk} {steps : ℕ}
    (inside : w.place < index.size) (ends : Ends index w steps) :
    ∃ places p, Seeks index w places p ∧ emptyPlaceFrom index w steps = some p ∧
      places.length ≤ steps := by
  induction steps generalizing w with
  | zero => exact absurd ends not_ends_zero
  | succ steps ih =>
    have next_inside : (w.next index.size).place < index.size := Walk.next_place_lt _ (by omega)
    rw [emptyPlaceFrom]
    by_cases mark : index[w.place]? = some .empty
    · exact ⟨[w.place], w.place, .here mark, by rw [if_pos mark], by simp⟩
    · obtain ⟨places, p, rest, found, length⟩ := ih next_inside (ends.next mark)
      obtain ⟨m, at_place⟩ : ∃ m, index[w.place]? = some m := ⟨_, Array.getElem?_eq_getElem inside⟩
      have full : m ≠ .empty := by
        rintro rfl
        exact mark at_place
      exact ⟨w.place :: places, p, .later at_place full rest, by rw [if_neg mark, found],
        by simpa using length⟩

/-- Every search in a table ends within `size + 7` places, and the index names only slots that there
are. -/
structure SearchesEnd (view : κ → Bytes) (t : Table κ ν) : Prop where
  named_lt : ∀ p n : ℕ, t.index[p]? = some (.slot n) → n < t.slots.size
  probe : ∀ key : Bytes, ∃ places,
    Searches t (fun s => s.hash == hashBytes key && view s.key == key) none
      (Walk.start t.size (hashBytes key)) places (t.probe view key) ∧ places.length ≤ t.size + 7
  emptyPlace : ∀ hash : UInt32, ∃ places p, Seeks t.index (Walk.start t.size hash) places p ∧
    t.emptyPlace? hash = some p ∧ places.length ≤ t.size + 7

theorem Sound.searchesEnd (h : Sound view t) : SearchesEnd view t := by
  have inside (hash : UInt32) : (Walk.start t.size hash).place < t.size :=
    Walk.start_place_lt hash (by have := h.size_ge; omega)
  have named (p n : ℕ) (mark : t.index[p]? = some (.slot n)) : ∃ s, t.slots.get? n = some s := by
    obtain ⟨s, slot, _⟩ := h.named p n mark
    exact ⟨s, by rw [Sequence.get?_eq, slot]⟩
  constructor
  case named_lt =>
    intro p n mark
    obtain ⟨s, slot, _⟩ := h.named p n mark
    exact (List.getElem?_eq_some_iff.mp slot).1
  case probe => exact fun key => searches_probeFrom named (inside _) (h.ends _)
  case emptyPlace => exact fun hash => seeks_emptyPlaceFrom (inside hash) (h.ends hash)

/-- The table that a rebuild has made when it has put some of the live slots into the new index. -/
def rebuilding (t : Table κ ν) (n : ℕ) : Table κ ν :=
  (t.liveSlots.take n).foldl reattach (ofSize t.rebuiltSize (Sequence.withCapacity t.live))

theorem rebuilding_length (t : Table κ ν) : t.rebuilding t.liveSlots.length = t.rebuild := by
  rw [rebuilding, List.take_length]
  rfl

theorem Sound.rebuilding (h : Sound view t) (n : ℕ) : Sound view (t.rebuilding n) :=
  (h.grown (List.take_sublist n _)).sound

/-- A walk comes to every place of an index within `size + 7` steps, and every search ends within as
many: on each table that a run leaves, and at each stage of a rebuild of it, up to the rebuilt table. -/
theorem run_new_searchesEnd [Inhabited ν] (view : κ → Bytes) :
    (∀ (k : ℕ) (hash : UInt32) (p : Fin (2 ^ k)), ∃ i : Fin (2 ^ k + 7),
        ((Walk.next (2 ^ k))^[i] (Walk.start (2 ^ k) hash)).place = p) ∧
      ∀ actions : List (Action κ ν),
        let t := (run view new actions).1
        SearchesEnd view t ∧ (∀ n, SearchesEnd view (t.rebuilding n)) ∧
          t.rebuilding t.liveSlots.length = t.rebuild := by
  constructor
  · intro k hash p
    obtain ⟨i, lt, place⟩ := Walk.covers k hash p.isLt
    exact ⟨⟨i, lt⟩, place⟩
  · intro actions
    have start : Sound view (new : Table κ ν) := Sound.new
    obtain ⟨sound, _⟩ := start.run actions
    exact ⟨sound.searchesEnd, fun n => (sound.rebuilding n).searchesEnd, rebuilding_length _⟩

/-- On each table that a run leaves with less than `2 ^ 31` slots, cells of 32 bits keep the marks of the
index. -/
theorem run_new_cells [Inhabited ν] (view : κ → Bytes) (actions : List (Action κ ν))
    (few : (run view new actions).1.slots.size < 2 ^ 31) :
    ∀ m ∈ (run view new actions).1.index, Mark.ofCell m.cell = m := by
  have start : Sound view (new : Table κ ν) := Sound.new
  obtain ⟨sound, _⟩ := start.run actions
  intro m mem
  cases m with
  | empty | deleted => decide
  | slot n =>
    obtain ⟨p, mark⟩ := Array.getElem?_of_mem mem
    exact Mark.ofCell_slot (Nat.lt_of_le_of_lt (sound.searchesEnd.named_lt p n mark) few)

end Table

end AwkCore
