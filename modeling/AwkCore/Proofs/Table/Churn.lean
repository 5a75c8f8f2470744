import AwkCore.Proofs.Table.Dictionary

/-!
# Tables in long runs

A rebuild doubles the index only where the live entries come up to half the limit. So the size of a
table keeps to the largest number of entries that it has held at one time, however many keys have
passed through it. And a rebuild leaves room for so many entries that those which come in before the
next one pay for what that one moves.
-/
namespace AwkCore.Table

variable {κ ν : Type}

section Measures

variable [Inhabited ν] (view : κ → Bytes)

/-- The key for which an action finds an entry or makes one. -/
def Action.entryKey? : Action κ ν → Option κ
  | .visit key _ | .insert key _ => some key
  | _ => none

/-- Whether an insertion rebuilds the index: the key is not there, and there is no room for it. -/
def rebuildsFor (t : Table κ ν) (key : κ) : Bool :=
  match t.probe view (view key) with
  | .found _ _ => false
  | .vacant _ => t.limit ≤ t.live + t.deleted
  | .exhausted => true

/-- The number of entries that an action makes. -/
def made (t : Table κ ν) (a : Action κ ν) : ℕ :=
  a.entryKey?.elim 0 fun key => (t.findOrInsert view key).created.toNat

/-- The number of rebuilds for an action. -/
def rebuilds (t : Table κ ν) (a : Action κ ν) : ℕ :=
  a.entryKey?.elim 0 fun key => (t.rebuildsFor view key).toNat

/-- The number of live entries that are moved for an action: all of them if there is a rebuild. -/
def moved (t : Table κ ν) (a : Action κ ν) : ℕ := t.live * rebuilds view t a

/-- The sum of a measure over the actions of a run, each taken in the table that it finds. -/
def total (f : Table κ ν → Action κ ν → ℕ) : Table κ ν → List (Action κ ν) → ℕ
  | _, [] => 0
  | t, a :: as => f t a + total f (t.apply view a).1 as

/-- The largest number of live entries at any point of a run. -/
def peak : Table κ ν → List (Action κ ν) → ℕ
  | t, [] => t.live
  | t, a :: as => max t.live (peak (t.apply view a).1 as)

end Measures

/-- What an action does to the counters of a table, with the entries it makes and its rebuilds: it adds
nothing, or it adds an entry to the index as it is, or to one that is built anew. -/
inductive Counts (t u : Table κ ν) : (made rebuilds : ℕ) → Prop
  | kept (size : u.size = t.size) (load : u.live + u.deleted ≤ t.live + t.deleted) : Counts t u 0 0
  | added (size : u.size = t.size) (live : u.live = t.live + 1) (deleted : u.deleted = t.deleted) :
    Counts t u 1 0
  | rebuilt (full : t.limit ≤ t.live + t.deleted) (size : u.size = t.rebuiltSize)
      (live : u.live = t.live + 1) (deleted : u.deleted = 0) : Counts t u 1 1

variable {view : κ → Bytes} {t u : Table κ ν}

/-- Writing a value changes no counter. -/
theorem Counts.writeAt {made rebuilds : ℕ} (counts : Counts t u made rebuilds) (n : ℕ) (f : ν → ν) :
    Counts t (u.writeAt n f) made rebuilds := by
  have same : (u.writeAt n f).size = u.size ∧ (u.writeAt n f).live = u.live ∧
      (u.writeAt n f).deleted = u.deleted := by
    unfold Table.writeAt
    split <;> exact ⟨rfl, rfl, rfl⟩
  obtain ⟨size, live, deleted⟩ := same
  cases counts with
  | kept size' load => exact .kept (size.trans size') (by omega)
  | added size' live' deleted' => exact .added (size.trans size') (by omega) (by omega)
  | rebuilt full size' live' deleted' =>
    exact .rebuilt full (size.trans size') (by omega) (by omega)

/-- A table has its first size, or a size that some number of live entries calls for. -/
def Fits (most : ℕ) (t : Table κ ν) : Prop := t.size = minimumSize ∨ t.size / 5 < most

/-- The slots of a table keep to its limit, and the limit to its size. -/
theorem Sound.size_bounds (h : Sound view t) {most : ℕ} (fits : t.Fits most) :
    t.size ≤ max 8 (5 * most) ∧ t.slots.size ≤ t.limit ∧ t.limit ≤ max 6 (4 * most) := by
  have limit := h.limit_eq
  have load := h.load_le
  have length := h.slots_length
  rw [← Sequence.size_eq] at length
  unfold Fits minimumSize at fits
  unfold limitFor at limit
  omega

variable [Inhabited ν]

theorem findOrInsert_of_rebuildsFor {key : κ} (h : t.rebuildsFor view key = true) :
    t.findOrInsert view key = t.placeInRebuilt (newSlot view key) := by
  unfold rebuildsFor at h
  unfold Table.findOrInsert
  split at h <;> simp_all [newSlot]

/-- Without a rebuild an insertion leaves the table as it is, or attaches a slot to it. -/
theorem findOrInsert_of_not_rebuildsFor {key : κ} (h : t.rebuildsFor view key = false) :
    ((t.findOrInsert view key).table = t ∧ (t.findOrInsert view key).created = false) ∨
      ∃ p, (t.findOrInsert view key).table = t.attach p (newSlot view key) ∧
        (t.findOrInsert view key).created = true := by
  unfold rebuildsFor at h
  cases probe : t.probe view (view key) with
  | found p n => simp [findOrInsert_found probe]
  | vacant p =>
    have room : t.live + t.deleted < t.limit := by simpa [probe] using h
    exact .inr ⟨p, by simp [findOrInsert_vacant probe, room]⟩
  | exhausted => simp [probe] at h

theorem Sound.placeInRebuilt_counts (h : Sound view t) (key : κ)
    (full : t.limit ≤ t.live + t.deleted) :
    Counts t (t.placeInRebuilt (newSlot view key)).table 1 1 := by
  obtain ⟨p, place⟩ := h.rebuild_sound.emptyPlace_isSome (hashBytes (view key))
  have table : (t.placeInRebuilt (newSlot view key)).table =
      t.rebuild.attach p (newSlot view key) := by
    simp [Table.placeInRebuilt, Table.reattach, newSlot, place]
  have live : t.rebuild.live = t.live := by
    rw [← liveSlots_length h.rebuild_sound, h.rebuild_liveSlots, liveSlots_length h]
  rw [table]
  apply Counts.rebuilt full
  · exact Array.size_setIfInBounds.trans h.rebuild_size
  · exact congrArg (· + 1) live
  · exact h.rebuild.deleted_eq

theorem Sound.findOrInsert_counts (h : Sound view t) (key : κ) :
    Counts t (t.findOrInsert view key).table (t.findOrInsert view key).created.toNat
      (t.rebuildsFor view key).toNat := by
  cases again : t.rebuildsFor view key with
  | true =>
    have full : t.limit ≤ t.live + t.deleted := by
      cases probe : t.probe view (view key) with
      | found p n => simp [rebuildsFor, probe] at again
      | vacant p => simpa [rebuildsFor, probe] using again
      | exhausted => exact absurd probe (h.probe_ne_exhausted _)
    rw [findOrInsert_of_rebuildsFor again]
    exact h.placeInRebuilt_counts key full
  | false =>
    rcases findOrInsert_of_not_rebuildsFor again with ⟨same, created⟩ | ⟨p, attached, created⟩
    · rw [same, created]
      exact .kept rfl le_rfl
    · rw [attached, created]
      exact .added Array.size_setIfInBounds rfl rfl

theorem Sound.delete_counts (h : Sound view t) (key : Bytes) :
    Counts t (t.delete view key).1 0 0 := by
  rcases h.search key with ⟨p, n, s, probe, _, here⟩ | ⟨p, probe, _⟩
  · -- The live entry that is found is among those that are counted.
    have pos : 0 < t.live := by
      rw [← liveSlots_length h]
      exact List.length_pos_of_mem here.mem
    rw [delete_found probe]
    refine .kept Array.size_setIfInBounds ?_
    show t.live - 1 + (t.deleted + 1) ≤ t.live + t.deleted
    omega
  · simp only [Table.delete, probe]
    exact .kept rfl le_rfl

theorem Sound.counts (h : Sound view t) (a : Action κ ν) :
    Counts t (t.apply view a).1 (made view t a) (rebuilds view t a) := by
  cases a with
  | change key f =>
    simp only [Table.apply]
    split
    · exact (Counts.kept rfl le_rfl).writeAt _ f
    · exact .kept rfl le_rfl
  | visit key f => exact (h.findOrInsert_counts key).writeAt _ f
  | insert key value =>
    simp only [Table.apply, h.insert_eq key value]
    exact (h.findOrInsert_counts key).writeAt _ _
  | delete key => exact h.delete_counts key
  | clear =>
    refine .kept ?_ (Nat.zero_le _)
    simp [Table.apply, Table.clear, Table.ofSize, Table.size]
  | find => exact .kept rfl le_rfl
  | contains => exact .kept rfl le_rfl
  | length => exact .kept rfl le_rfl
  | entries => exact .kept rfl le_rfl
  | keys => exact .kept rfl le_rfl

theorem Sound.fits_apply (h : Sound view t) {most : ℕ} (fits : t.Fits most) {a : Action κ ν}
    (live : (t.apply view a).1.live ≤ most) : (t.apply view a).1.Fits most := by
  have limit := h.limit_eq
  have counts := h.counts a
  unfold Fits limitFor at *
  generalize made view t a = m, rebuilds view t a = r, (t.apply view a).1 = u at *
  cases counts with
  | kept size => rwa [size]
  | added size => rwa [size]
  | rebuilt full size live' deleted =>
    rw [size, rebuiltSize]
    split
    · -- The live entries come up to half the limit, which is a fifth of the doubled size.
      exact .inr (by omega)
    · exact fits

theorem live_le_peak (t : Table κ ν) (actions : List (Action κ ν)) :
    t.live ≤ peak view t actions := by
  cases actions with
  | nil => exact le_rfl
  | cons a actions => exact le_max_left _ _

theorem Sound.fits_run (h : Sound view t) {most : ℕ} (fits : t.Fits most)
    {actions : List (Action κ ν)} (bound : peak view t actions ≤ most) :
    (t.run view actions).1.Fits most := by
  induction actions generalizing t with
  | nil => exact fits
  | cons a actions ih =>
    have later := (le_max_right _ _).trans bound
    exact ih (h.apply a).sound (h.fits_apply fits ((live_le_peak _ _).trans later)) later

theorem peak_append_le (t : Table κ ν) (past later : List (Action κ ν)) :
    peak view t past ≤ peak view t (past ++ later) := by
  induction past generalizing t with
  | nil => exact live_le_peak t later
  | cons a past ih => exact max_le_max le_rfl (ih _)

/-- At every point of a run on a new table, the table has its first size of 8, or a fifth of its size is
less than the largest number of live entries at any point of the run. It has no more slots than its limit
allows. -/
theorem run_new_size_le_peak (view : κ → Bytes) (past later : List (Action κ ν)) :
    let t := (run view (new : Table κ ν) past).1
    let most := peak view (new : Table κ ν) (past ++ later)
    (t.size = 8 ∨ t.size / 5 < most) ∧ t.size ≤ max 8 (5 * most) ∧
      t.slots.size ≤ t.limit ∧ t.limit ≤ max 6 (4 * most) := by
  intro t most
  have start : Sound view (new : Table κ ν) := Sound.new
  have fits : t.Fits most := start.fits_run (.inl rfl) (peak_append_le _ past later)
  obtain ⟨sound, _⟩ := start.run past
  exact ⟨fits, sound.size_bounds fits⟩

/-- What a run spends is paid by what it takes in and by what the table has laid up before, if that is so
of each action. -/
theorem Sound.total_le {cost income : Table κ ν → Action κ ν → ℕ} {saved : Table κ ν → ℕ}
    (h : Sound view t) (step : ∀ (t : Table κ ν) (a : Action κ ν), Sound view t →
      cost t a + saved (t.apply view a).1 ≤ saved t + income t a) (actions : List (Action κ ν)) :
    total view cost t actions + saved (t.run view actions).1 ≤
      saved t + total view income t actions := by
  induction actions generalizing t with
  | nil => simp [total, Table.run]
  | cons a actions ih =>
    have first := step t a h
    have rest := ih (h.apply a).sound
    simp only [total, Table.run]
    omega

/-- The moves that a table has been paid for: two for each place in use beyond half of its limit. -/
def paidMoves (t : Table κ ν) : ℕ := 2 * (t.live + t.deleted) - t.limit

/-- An entry that is made pays for two moves. -/
theorem Sound.moved_apply (h : Sound view t) (a : Action κ ν) :
    moved view t a + (t.apply view a).1.paidMoves ≤ t.paidMoves + 2 * made view t a := by
  have counts := h.counts a
  have after := (h.apply a).sound.limit_eq
  have limit := h.limit_eq
  have load := h.load_le
  unfold moved paidMoves limitFor at *
  generalize made view t a = m, rebuilds view t a = r, (t.apply view a).1 = u at *
  cases counts with
  | kept size => omega
  | added size => omega
  | rebuilt full size live deleted =>
    rw [rebuiltSize] at size
    split at size <;> omega

/-- How near a table is to its limit, from zero to three. -/
def nearness (t : Table κ ν) : ℕ := 3 - (t.limit - (t.live + t.deleted))

theorem Sound.rebuilds_apply (h : Sound view t) (a : Action κ ν) :
    4 * rebuilds view t a + (t.apply view a).1.nearness ≤ t.nearness + made view t a := by
  have counts := h.counts a
  have after := (h.apply a).sound.limit_eq
  have limit := h.limit_eq
  have load := h.load_le
  have size := h.size_ge
  unfold nearness limitFor at *
  generalize made view t a = m, rebuilds view t a = r, (t.apply view a).1 = u at *
  cases counts with
  | kept size' => omega
  | added size' => omega
  | rebuilt full size' live deleted =>
    rw [rebuiltSize] at size'
    split at size' <;> omega

theorem total_mul (n : ℕ) (f : Table κ ν → Action κ ν → ℕ) (t : Table κ ν)
    (actions : List (Action κ ν)) :
    total view (fun t a => n * f t a) t actions = n * total view f t actions := by
  induction actions generalizing t with
  | nil => rfl
  | cons a actions ih => simp only [total, ih, Nat.mul_add]

/-- The rebuilds of a run on a new table move at most two entries for each entry that the run makes. And
however far the run has come, a stretch of it has at most one rebuild for every four entries that it
makes, rounded up. What is counted as a rebuild is one: an insertion goes into an index that is built
anew just then, and otherwise it leaves the slots in their places. -/
theorem run_new_moved_le (view : κ → Bytes) (past later : List (Action κ ν)) :
    let t := (run view (new : Table κ ν) past).1
    total view (moved view) (new : Table κ ν) (past ++ later) ≤
        2 * total view (made view) (new : Table κ ν) (past ++ later) ∧
      4 * total view (rebuilds view) t later ≤ total view (made view) t later + 3 ∧
      ∀ key, let placed := t.findOrInsert view key
        (t.rebuildsFor view key = true → placed = t.placeInRebuilt (newSlot view key)) ∧
        (t.rebuildsFor view key = false → placed.table = t ∧ placed.created = false ∨
          ∃ p, placed.table = t.attach p (newSlot view key) ∧ placed.created = true) := by
  intro t
  have start : Sound view (new : Table κ ν) := Sound.new
  have sound : Sound view t := (start.run past).1
  have moves := start.total_le (fun t a h => h.moved_apply a) (past ++ later)
  have rare := sound.total_le (fun t a h => h.rebuilds_apply a) later
  rw [total_mul] at moves rare
  have near : t.nearness ≤ 3 := Nat.sub_le _ _
  have none : (new : Table κ ν).paidMoves = 0 := rfl
  exact ⟨by omega, by omega, fun _ =>
    ⟨findOrInsert_of_rebuildsFor, findOrInsert_of_not_rebuildsFor⟩⟩

end AwkCore.Table
