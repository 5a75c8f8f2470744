import AwkCore.Proofs.Table.Walk

/-!
# Searching an index

A search follows the walk of a hash up to the first empty place. `Reaches` says that a place comes
on a walk before that, so a search finds the slots named by the places that its walk reaches and no
other. It comes to an end wherever the index has an empty place.
-/
namespace AwkCore.Table

variable {κ ν : Type}

/-- A walk comes to a place and meets no empty place before it. -/
inductive Reaches (index : Array Mark) : Walk → ℕ → Prop
  | here (w : Walk) : Reaches index w w.place
  | later {w : Walk} {p : ℕ} (full : index[w.place]? ≠ some Mark.empty)
      (rest : Reaches index (w.next index.size) p) : Reaches index w p

/-- A walk still reaches its places when empty places are filled. -/
theorem Reaches.mono {before after : Array Mark} {w : Walk} {p : ℕ} (h : Reaches before w p)
    (size : after.size = before.size)
    (full : ∀ q : ℕ, before[q]? ≠ some Mark.empty → after[q]? ≠ some Mark.empty) : Reaches after w p := by
  induction h with
  | here w => exact .here w
  | later h _ ih => exact .later (full _ h) (by rwa [size])

/-- An empty place that a walk meets within some steps. -/
def Ends (index : Array Mark) (w : Walk) (steps : ℕ) : Prop :=
  ∃ i < steps, index[((Walk.next index.size)^[i] w).place]? = some Mark.empty

theorem Ends.next {index : Array Mark} {w : Walk} {steps : ℕ} (h : Ends index w (steps + 1))
    (full : index[w.place]? ≠ some Mark.empty) : Ends index (w.next index.size) steps := by
  obtain ⟨i, hi, he⟩ := h
  cases i with
  | zero => exact absurd he full
  | succ i => exact ⟨i, by omega, by rwa [Function.iterate_succ_apply] at he⟩

theorem not_ends_zero {index : Array Mark} {w : Walk} : ¬ Ends index w 0 := by
  rintro ⟨i, hi, _⟩
  omega

/-- A place where a key may be put: it names no slot. -/
def Free (index : Array Mark) (p : ℕ) : Prop :=
  index[p]? = some Mark.empty ∨ index[p]? = some Mark.deleted

section Probe

variable {t : Table κ ν} {isHere : Slot κ ν → Bool}

theorem probeFrom_found {reusable : Option ℕ} {w : Walk} {steps p n : ℕ}
    (h : t.probeFrom isHere reusable w steps = .found p n) :
    t.index[p]? = some (.slot n) ∧ (t.slots.get? n).any isHere := by
  induction steps generalizing reusable w with
  | zero => simp [probeFrom] at h
  | succ steps ih =>
    rw [probeFrom] at h
    split at h
    · simp at h
    · simp at h
    · exact ih h
    · rename_i mark
      split at h
      · rename_i here
        simp only [Probe.found.injEq] at h
        obtain ⟨rfl, rfl⟩ := h
        exact ⟨mark, here⟩
      · exact ih h

/-- The place of a failed search is the one to be reused, or else one that the walk reaches. -/
theorem probeFrom_vacant_place {reusable : Option ℕ} {w : Walk} {steps p : ℕ}
    (h : t.probeFrom isHere reusable w steps = .vacant p) :
    reusable = some p ∨ (reusable = none ∧ Reaches t.index w p ∧ Free t.index p) := by
  induction steps generalizing reusable w with
  | zero => simp [probeFrom] at h
  | succ steps ih =>
    rw [probeFrom] at h
    split at h
    · simp at h
    · rename_i mark
      simp only [Probe.vacant.injEq] at h
      cases reusable with
      | some q => exact .inl (congrArg some h)
      | none =>
        subst h
        exact .inr ⟨rfl, .here w, .inl mark⟩
    · rename_i mark
      cases reusable with
      | some q => exact .inl (by simpa using ih h)
      | none =>
        have reused : w.place = p := by simpa using ih h
        subst reused
        exact .inr ⟨rfl, .here w, .inr mark⟩
    · rename_i n mark
      split at h
      · simp at h
      · rcases ih h with kept | ⟨none, reached, free⟩
        · exact .inl kept
        · exact .inr ⟨none, .later (by simp [mark]) reached, free⟩

/-- A failed search has looked at every slot that its walk reaches. -/
theorem probeFrom_vacant_slot {reusable : Option ℕ} {w : Walk} {steps p q n : ℕ}
    (h : t.probeFrom isHere reusable w steps = .vacant p) (reached : Reaches t.index w q)
    (mark : t.index[q]? = some (.slot n)) : ¬ (t.slots.get? n).any isHere := by
  induction steps generalizing reusable w with
  | zero => simp [probeFrom] at h
  | succ steps ih =>
    rw [probeFrom] at h
    cases reached with
    | here =>
      simp only [mark] at h
      split at h
      · simp at h
      · assumption
    | later full rest =>
      split at h
      · simp at h
      · contradiction
      · exact ih h rest
      · split at h
        · simp at h
        · exact ih h rest

theorem probeFrom_ne_exhausted {reusable : Option ℕ} {w : Walk} {steps : ℕ}
    (hw : w.place < t.size) (ends : Ends t.index w steps) :
    t.probeFrom isHere reusable w steps ≠ .exhausted := by
  induction steps generalizing reusable w with
  | zero => exact absurd ends not_ends_zero
  | succ steps ih =>
    have next_lt : (w.next t.size).place < t.size := Walk.next_place_lt _ (by omega)
    rw [probeFrom]
    split
    · rename_i outside
      exact absurd (Array.getElem?_eq_none_iff.mp outside) (Nat.not_le.mpr hw)
    · simp
    · rename_i mark
      exact ih next_lt (ends.next (by simp [mark]))
    · rename_i mark
      split
      · simp
      · exact ih next_lt (ends.next (by simp [mark]))

end Probe

theorem emptyPlaceFrom_eq_some {index : Array Mark} {w : Walk} {steps p : ℕ}
    (h : emptyPlaceFrom index w steps = some p) :
    Reaches index w p ∧ index[p]? = some Mark.empty := by
  induction steps generalizing w with
  | zero => simp [emptyPlaceFrom] at h
  | succ steps ih =>
    rw [emptyPlaceFrom] at h
    split at h
    · rename_i mark
      simp only [Option.some.injEq] at h
      subst h
      exact ⟨.here w, mark⟩
    · rename_i full
      exact ⟨.later full (ih h).1, (ih h).2⟩

theorem emptyPlaceFrom_isSome {index : Array Mark} {w : Walk} {steps : ℕ}
    (ends : Ends index w steps) : ∃ p, emptyPlaceFrom index w steps = some p := by
  induction steps generalizing w with
  | zero => exact absurd ends not_ends_zero
  | succ steps ih =>
    rw [emptyPlaceFrom]
    split
    · exact ⟨_, rfl⟩
    · rename_i full
      exact ih (ends.next full)

/-- An index of a proper size with an empty place ends every walk within reach. -/
theorem ends_of_empty {index : Array Mark} {k : ℕ} (size : index.size = 2 ^ k)
    (some_empty : Mark.empty ∈ index) (hash : UInt32) :
    Ends index (Walk.start index.size hash) (index.size + 7) := by
  obtain ⟨p, hp, he⟩ := Array.mem_iff_getElem.mp some_empty
  obtain ⟨i, hi, place⟩ := Walk.covers k hash (p := p) (by omega)
  refine ⟨i, by omega, ?_⟩
  rw [size, place]
  simp [hp, he]

end AwkCore.Table
