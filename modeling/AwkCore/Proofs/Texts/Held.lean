import Mathlib.Data.List.Perm.Basic
import AwkCore.Texts

/-!
# Handles on strings

`Held` says that the handles which are out on a pool of strings are those of a list, so that each
buffer counts as many holders as the list has handles on it. Each operation is described by what it
does to the list, and by the buffers that it leaves alone.
-/
namespace AwkCore.Texts

variable {t : Texts} {r s source : TextRef} {hs : List TextRef}

/-- The handles on the strings of a pool are those of a list. -/
def Held (t : Texts) (hs : List TextRef) : Prop := ∀ r, t.holders r = hs.count r

theorem Held.empty : Held Pool.empty [] := fun _ => rfl

theorem Held.perm {hs' : List TextRef} (h : Held t hs) (perm : hs.Perm hs') : Held t hs' := by
  intro r
  rw [h r, perm.count_eq]

theorem shared?_of_holders (h : 0 < t.holders r) :
    ∃ s : Shared Buffer, t.shared? r.place = some s ∧ s.holders = t.holders r := by
  unfold holders Pool.holders at *
  cases found : t.shared? r.place with
  | none => simp [found] at h
  | some s => exact ⟨s, rfl, rfl⟩

theorem Held.shared (h : Held t hs) (hr : r ∈ hs) :
    ∃ s : Shared Buffer, t.shared? r.place = some s ∧ s.holders = hs.count r := by
  have out : 0 < t.holders r := by
    rw [h r]
    exact List.count_pos_iff.mpr hr
  rw [← h r]
  exact shared?_of_holders out

theorem buffer_congr {u : Texts} (h : u.shared? r.place = t.shared? r.place) :
    u.buffer r = t.buffer r := by
  simp [buffer, Pool.get?, h]

theorem place_ne (h : r ≠ s) : r.place ≠ s.place := by
  cases r
  cases s
  simpa using h

/-- A handle on a fresh buffer is not one that was out before. -/
theorem Held.fresh (h : Held t hs) : (⟨t.fresh⟩ : TextRef) ∉ hs := by
  apply List.count_eq_zero.mp
  rw [← h]
  simp [holders, Pool.holders, Pool.shared?_fresh]

section Create

variable {b : Buffer}

theorem buffer_create : (t.create b).1.buffer (t.create b).2 = b := by
  simp [create, buffer, Pool.get?, Pool.shared?_add]

theorem buffer_create_ne (h : r ≠ (t.create b).2) : (t.create b).1.buffer r = t.buffer r := by
  apply buffer_congr
  exact (Pool.shared?_add t b r.place).trans (if_neg (place_ne h))

theorem Held.create (h : Held t hs) : Held (t.create b).1 ((t.create b).2 :: hs) := by
  intro r
  rw [List.count_cons, ← h r]
  by_cases eq : (t.create b).2 = r
  · subst eq
    simp [Texts.create, holders, Pool.holders, Pool.shared?_add, Pool.shared?_fresh]
  · have shared : (t.create b).1.shared? r.place = t.shared? r.place :=
      (Pool.shared?_add t b r.place).trans (if_neg (place_ne (Ne.symm eq)))
    simp [eq, holders, Pool.holders, shared]

end Create

theorem shared?_share : (t.share r).shared? s.place =
    if r = s then (t.shared? s.place).map fun u => { u with holders := u.holders + 1 }
    else t.shared? s.place := by
  refine (Pool.shared?_modify t r.place s.place _).trans ?_
  cases r
  cases s
  simp

theorem buffer_share : (t.share r).buffer s = t.buffer s := by
  unfold buffer Pool.get?
  rw [shared?_share]
  split
  · cases t.shared? s.place <;> rfl
  · rfl

theorem Held.share (h : Held t hs) (hr : r ∈ hs) : Held (t.share r) (r :: hs) := by
  intro s
  rw [List.count_cons, ← h s]
  unfold holders Pool.holders
  rw [shared?_share]
  by_cases eq : r = s
  · subst eq
    obtain ⟨u, hu, _⟩ := h.shared hr
    simp [hu]
  · simp [eq]

theorem shared?_drop : (t.drop r).shared? s.place =
    if r = s then
      (t.shared? s.place).bind fun u => if u.holders ≤ 1 then none else some ⟨u.content, u.holders - 1⟩
    else t.shared? s.place := by
  refine (Pool.shared?_release t r.place s.place).trans ?_
  cases r
  cases s
  simp

/-- Letting go of a handle leaves every buffer alone on which another handle is out. -/
theorem Held.buffer_drop (h : Held t (r :: hs)) (hs_mem : s ∈ hs) :
    (t.drop r).buffer s = t.buffer s := by
  unfold buffer Pool.get?
  rw [shared?_drop]
  split
  · rename_i eq
    subst eq
    obtain ⟨u, hu, count⟩ := h.shared (List.mem_cons_self)
    have others : 0 < hs.count r := List.count_pos_iff.mpr hs_mem
    rw [List.count_cons_self] at count
    rw [hu, Option.bind_some, if_neg (by omega)]
    rfl
  · rfl

theorem Held.drop (h : Held t (r :: hs)) : Held (t.drop r) hs := by
  intro s
  have before := h s
  rw [List.count_cons] at before
  unfold holders Pool.holders at *
  rw [shared?_drop]
  by_cases eq : r = s
  · subst eq
    obtain ⟨u, hu, count⟩ := h.shared (List.mem_cons_self)
    rw [List.count_cons_self] at count
    by_cases last : u.holders ≤ 1
    · simp [hu, last]
      omega
    · simp [hu, last]
      omega
  · simpa [eq] using before

/-- What a change of a string answers: a handle that no other is equal to, on a buffer with the new
content. The buffers of all other handles are as they were. -/
structure Written (t : Texts) (hs : List TextRef) (content : Bytes) (q : Texts × TextRef) : Prop where
  held : Held q.1 (q.2 :: hs)
  alone : q.2 ∉ hs
  bytes_eq : q.1.bytes q.2 = content
  kept : ∀ s ∈ hs, q.1.buffer s = t.buffer s

theorem Held.replace (h : Held t (r :: hs)) (content : Bytes) :
    Written t hs content (t.replace r content) := by
  have count := h r
  rw [List.count_cons_self] at count
  unfold Texts.replace
  split
  · rename_i sole
    -- One handle was counted and `r` is it, so no other one can see the buffer change.
    have alone : r ∉ hs := List.count_eq_zero.mp (by omega)
    have shared (s : TextRef) : (Pool.set t r.place ((t.buffer r).setContent content)).shared? s.place =
        if r = s then (t.shared? s.place).map fun u => ⟨(t.buffer r).setContent content, u.holders⟩
        else t.shared? s.place := by
      refine (Pool.shared?_modify t r.place s.place _).trans ?_
      cases r
      cases s
      simp
    obtain ⟨u, hu, _⟩ := h.shared (List.mem_cons_self)
    constructor
    case held =>
      intro s
      rw [← h s]
      unfold holders Pool.holders
      rw [shared]
      split
      · cases t.shared? s.place <;> rfl
      · rfl
    case alone => exact alone
    case bytes_eq =>
      have changed := shared r
      rw [if_pos rfl, hu, Option.map_some] at changed
      unfold bytes
      rw [buffer, Pool.get?, changed]
      simp [Buffer.setContent, Buffer.content]
    case kept =>
      intro s hs_mem
      apply buffer_congr
      rw [shared, if_neg]
      rintro rfl
      exact alone hs_mem
  · have dropped := h.drop
    constructor
    case held => exact dropped.create
    case alone => exact dropped.fresh
    case bytes_eq =>
      rw [bytes, buffer_create]
      simp [Buffer.ofBytes, Buffer.holding, Buffer.content]
    case kept =>
      intro s hs_mem
      rw [buffer_create_ne, h.buffer_drop hs_mem]
      rintro rfl
      exact dropped.fresh hs_mem

theorem Held.update (h : Held t (r :: hs)) (offset : ℕ) (bytes : Bytes) :
    Written t hs ((t.bytes r).take offset ++ bytes) (t.update r offset bytes) := h.replace _

theorem length_buffer : (t.buffer r).length = (t.bytes r).length := by
  simp [Buffer.length, bytes, Buffer.content]

theorem Held.push (h : Held t (r :: hs)) (bytes : Bytes) :
    Written t hs (t.bytes r ++ bytes) (t.push r bytes) := by
  have written := h.update (t.buffer r).length bytes
  rw [length_buffer, List.take_length, ← length_buffer] at written
  exact written

/-- A change that is made while one more handle is held, which is let go of afterwards. -/
theorem Written.letGo {content : Bytes} {q : Texts × TextRef}
    (h : Written (t.share source) (source :: hs) content q) :
    Written t hs content (q.1.drop source, q.2) := by
  have after := h.held.perm (List.Perm.swap source q.2 hs)
  constructor
  case held => exact after.drop
  case alone => exact fun mem => h.alone (List.mem_cons_of_mem _ mem)
  case bytes_eq =>
    rw [bytes, after.buffer_drop List.mem_cons_self]
    exact h.bytes_eq
  case kept =>
    intro s hs_mem
    rw [after.buffer_drop (List.mem_cons_of_mem _ hs_mem), h.kept s (List.mem_cons_of_mem _ hs_mem),
      buffer_share]

/-- Appending a string to one that may share its buffer: nothing is changed if it is empty. -/
theorem Held.extend (h : Held t (r :: hs)) (source_mem : source ∈ r :: hs) :
    (t.bytes source = [] ∧ t.extend r source = (t, r)) ∨
      (t.bytes source ≠ [] ∧ Written t hs (t.bytes r ++ t.bytes source) (t.extend r source)) := by
  by_cases none : t.bytes source = []
  · exact .inl ⟨none, by simp [Texts.extend, none]⟩
  · refine .inr ⟨none, ?_⟩
    have same : (t.share source).bytes r = t.bytes r := congrArg _ buffer_share
    have shared := (h.share source_mem).perm (List.Perm.swap r source hs)
    have written := (shared.push (t.bytes source)).letGo
    rw [same] at written
    simpa [Texts.extend, none] using written

theorem Held.copyFrom (h : Held t (r :: hs)) (source : TextRef) :
    (r = source ∧ t.copyFrom r source = (t, r)) ∨
      (r ≠ source ∧ Written t hs (t.bytes source) (t.copyFrom r source)) := by
  by_cases eq : r = source
  · exact .inl ⟨eq, by simp [Texts.copyFrom, eq]⟩
  · rw [Texts.copyFrom, if_neg eq]
    exact .inr ⟨eq, h.replace _⟩

end AwkCore.Texts
