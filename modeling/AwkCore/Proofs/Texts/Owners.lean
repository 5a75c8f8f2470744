import AwkCore.Proofs.Texts.Held
import AwkCore.Texts.Bank

/-!
# Strings owned one by one

In a row of owners every register has a string of its own, with the moment at which it was made or
written. A register that is shared takes the string over with its moment. A bank shows the same
strings at all times, two of its registers have one buffer exactly if their moments are equal, and
each buffer counts the registers that have it.
-/
namespace AwkCore

structure Owned where
  bytes : Bytes
  origin : ℕ

structure Owners where
  registers : Array (Option Owned)
  clock : ℕ

namespace Owners

variable (o : Owners)

def empty (registers : ℕ) : Owners := ⟨Array.replicate registers none, 0⟩

def owned? (i : ℕ) : Option Owned := o.registers[i]?.join

def put (i : ℕ) (x : Option Owned) : Owners := ⟨o.registers.setIfInBounds i x, o.clock + 1⟩

def change (i : ℕ) (f : Bytes → Bytes) : Owners :=
  match o.owned? i with
  | none => o
  | some x => o.put i (some ⟨f x.bytes, o.clock⟩)

def combine (i j : ℕ) (f : Owned → Owned → Owned) : Owners :=
  match o.owned? j with
  | none => o
  | some y =>
    match o.owned? i with
    | none => o
    | some x => o.put i (some (f x y))

/-- Copying a string that is shared already, or appending an empty one, is not a write. -/
def apply : Bank.Action → Owners
  | .create i b => o.put i (some ⟨b.content, o.clock⟩)
  | .share i j =>
    match o.owned? j with
    | none => o
    | some y => o.put i (some y)
  | .drop i => o.put i none
  | .swap i j => ⟨o.registers.swapIfInBounds i j, o.clock⟩
  | .update i offset bytes => o.change i fun old => old.take offset ++ bytes
  | .push i bytes => o.change i fun old => old ++ bytes
  | .copyFrom i j =>
    o.combine i j fun x y => ⟨y.bytes, if x.origin = y.origin then x.origin else o.clock⟩
  | .extend i j =>
    o.combine i j fun x y => ⟨x.bytes ++ y.bytes, if y.bytes = [] then x.origin else o.clock⟩

def run (actions : List Bank.Action) : Owners := actions.foldl apply o

end Owners

namespace Bank

open Texts (Held Written)

def Action.writes : Action → List ℕ
  | create i _ | share i _ | drop i | update i _ _ | push i _ | copyFrom i _ | extend i _ => [i]
  | swap i j => [i, j]

variable {b b' : Bank} {i j : ℕ} {r source : TextRef} {content : Bytes}

def handles (b : Bank) : List TextRef := b.registers.toList.filterMap id

def others (b : Bank) (i : ℕ) : List TextRef := (b.registers.toList.eraseIdx i).filterMap id

theorem lt_of_handle (h : b.handle? i = some r) : i < b.registers.size := by
  by_contra outside
  simp [handle?, Array.getElem?_eq_none (Nat.not_lt.mp outside)] at h

theorem filterMap_cons_id {o : Option TextRef} {l : List (Option TextRef)} :
    (o :: l).filterMap id = o.toList ++ l.filterMap id := by
  cases o <;> rfl

theorem place_handles_perm (hi : i < b.registers.size) (texts : Texts) (o : Option TextRef) :
    (b.place texts i o).handles.Perm (o.toList ++ b.others i) := by
  rw [handles, place, Array.toList_setIfInBounds, others, ← filterMap_cons_id]
  exact (List.set_perm_cons_eraseIdx (by simpa using hi) o).filterMap id

theorem handles_perm (hi : i < b.registers.size) :
    b.handles.Perm ((b.handle? i).toList ++ b.others i) := by
  have at_i : b.registers.toList[i]? = some (b.handle? i) := by simp [handle?, hi]
  obtain ⟨lt, eq⟩ := List.getElem?_eq_some_iff.mp at_i
  rw [handles, others, ← eq, ← filterMap_cons_id]
  exact (List.getElem_cons_eraseIdx_perm lt).symm.filterMap id

theorem handles_perm_cons (h : b.handle? i = some r) : b.handles.Perm (r :: b.others i) := by
  have perm := handles_perm (lt_of_handle h)
  rwa [h] at perm

theorem mem_handles (h : b.handle? i = some r) : r ∈ b.handles :=
  (handles_perm_cons h).mem_iff.mpr List.mem_cons_self

theorem mem_others (ne : j ≠ i) (h : b.handle? j = some r) : r ∈ b.others i := by
  refine List.mem_filterMap.mpr ⟨some r, ?_, rfl⟩
  rw [List.mem_eraseIdx_iff_getElem?]
  refine ⟨j, ne, ?_⟩
  rw [Array.getElem?_toList]
  exact Option.join_eq_some_iff.mp h

/-- A bank in which one register got another handle, while the buffers of the others stayed. -/
structure Moved (b b' : Bank) (i : ℕ) (o : Option TextRef) : Prop where
  lt : i < b.registers.size
  registers_eq : b'.registers = b.registers.setIfInBounds i o
  held : Held b'.texts b'.handles
  kept : ∀ r ∈ b.others i, b'.texts.buffer r = b.texts.buffer r

theorem Moved.place {texts : Texts} {o : Option TextRef} (hi : i < b.registers.size)
    (held : Held texts (o.toList ++ b.others i))
    (kept : ∀ r ∈ b.others i, texts.buffer r = b.texts.buffer r) :
    Moved b (b.place texts i o) i o :=
  ⟨hi, rfl, held.perm (place_handles_perm hi texts o).symm, kept⟩

theorem Moved.handle {o : Option TextRef} (m : Moved b b' i o) (k : ℕ) :
    b'.handle? k = if i = k then o else b.handle? k := by
  rw [handle?, m.registers_eq, Array.getElem?_setIfInBounds]
  split
  · rw [if_pos m.lt]
    rfl
  · rfl

/-- Letting go of what a register holds leaves the other handles alone. -/
theorem held_dropFrom {texts : Texts} {hs : List TextRef}
    (h : Held texts ((b.handle? i).toList ++ hs)) :
    Held (b.dropFrom texts i) hs ∧ ∀ r ∈ hs, (b.dropFrom texts i).buffer r = texts.buffer r := by
  unfold dropFrom
  cases old : b.handle? i with
  | none =>
    rw [old] at h
    exact ⟨h, fun _ _ => rfl⟩
  | some r =>
    rw [old] at h
    exact ⟨h.drop, fun _ mem => h.buffer_drop mem⟩

theorem Moved.put {texts : Texts} (hi : i < b.registers.size) (held : Held texts (r :: b.handles))
    (kept : ∀ s ∈ b.handles, texts.buffer s = b.texts.buffer s) :
    Moved b (b.put texts i r) i (some r) ∧ (b.put texts i r).texts.buffer r = texts.buffer r := by
  have perm : (r :: b.handles).Perm ((b.handle? i).toList ++ r :: b.others i) :=
    ((handles_perm hi).cons r).trans List.perm_middle.symm
  obtain ⟨left, same⟩ := held_dropFrom (held.perm perm)
  rw [Bank.put, if_pos hi]
  refine ⟨Moved.place hi left fun s mem => ?_, same r List.mem_cons_self⟩
  rw [same s (List.mem_cons_of_mem _ mem)]
  exact kept s ((handles_perm hi).mem_iff.mpr (List.mem_append_right _ mem))

/-- A register got a handle that no other register has, on a buffer with some content. -/
def Rewritten (b b' : Bank) (i : ℕ) (content : Bytes) : Prop :=
  ∃ r, Moved b b' i (some r) ∧ b'.texts.bytes r = content ∧ r ∉ b.others i

theorem Rewritten.place {q : Texts × TextRef} (hi : i < b.registers.size)
    (w : Written b.texts (b.others i) content q) :
    Rewritten b (b.place q.1 i (some q.2)) i content :=
  ⟨q.2, Moved.place hi w.held w.kept, w.bytes_eq, w.alone⟩

theorem Rewritten.change {f : TextRef → Texts × TextRef} (h : b.handle? i = some r)
    (w : Written b.texts (b.others i) content (f r)) : Rewritten b (b.change i f) i content := by
  rw [Bank.change, h]
  exact Rewritten.place (lt_of_handle h) w

/-- What `combine` needs to know of the change that it makes: when it leaves the string as it is,
and what it writes otherwise. -/
structure Combines (f : Texts → TextRef → TextRef → Texts × TextRef)
    (idle : TextRef → TextRef → Bytes → Prop) (content : Bytes → Bytes → Bytes) : Prop where
  cases : ∀ {t : Texts} {r source : TextRef} {hs : List TextRef}, Held t (r :: hs) →
    source ∈ r :: hs →
      (idle r source (t.bytes source) ∧ f t r source = (t, r)) ∨
        (¬ idle r source (t.bytes source) ∧
          Written t hs (content (t.bytes r) (t.bytes source)) (f t r source))

theorem combines_copyFrom :
    Combines Texts.copyFrom (fun r source _ => r = source) fun _ new => new :=
  ⟨fun h _ => h.copyFrom _⟩

theorem combines_extend : Combines Texts.extend (fun _ _ new => new = []) fun old new => old ++ new :=
  ⟨fun h mem => h.extend mem⟩

theorem combine_cases {f : Texts → TextRef → TextRef → Texts × TextRef}
    {idle : TextRef → TextRef → Bytes → Prop} {content : Bytes → Bytes → Bytes}
    (combines : Combines f idle content) (h : Held b.texts b.handles) (hr : b.handle? i = some r)
    (hs : b.handle? j = some source) :
    (idle r source (b.texts.bytes source) ∧ Moved b (b.combine i j f) i (some r) ∧
        (b.combine i j f).texts.bytes r = b.texts.bytes r) ∨
      (¬ idle r source (b.texts.bytes source) ∧
        Rewritten b (b.combine i j f) i (content (b.texts.bytes r) (b.texts.bytes source))) := by
  have held := h.perm (handles_perm_cons hr)
  have hi := lt_of_handle hr
  by_cases same : i = j
  · subst same
    obtain rfl : r = source := Option.some.inj (hr.symm.trans hs)
    have shared := held.share List.mem_cons_self
    have bytes : (b.texts.share r).bytes r = b.texts.bytes r := congrArg _ Texts.buffer_share
    simp only [combine, change, hr, if_true]
    rcases combines.cases shared List.mem_cons_self with ⟨rest, eq⟩ | ⟨busy, written⟩
    · rw [bytes] at rest
      rw [eq]
      refine .inl ⟨rest, Moved.place hi shared.drop fun s mem => ?_, ?_⟩
      · rw [shared.buffer_drop (List.mem_cons_of_mem _ mem), Texts.buffer_share]
      · exact (congrArg _ (shared.buffer_drop List.mem_cons_self)).trans bytes
    · rw [bytes] at busy written
      exact .inr ⟨busy, Rewritten.place hi written.letGo⟩
  · have mem : source ∈ r :: b.others i := List.mem_cons_of_mem _ (mem_others (Ne.symm same) hs)
    simp only [combine, change, hr, hs, if_neg same]
    rcases combines.cases held mem with ⟨rest, eq⟩ | ⟨busy, written⟩
    · rw [eq]
      exact .inl ⟨rest, Moved.place hi held fun _ _ => rfl, rfl⟩
    · exact .inr ⟨busy, Rewritten.place hi written⟩

/-- All registers but some have their handles, and those have the buffers that they had. -/
def Keeps (b b' : Bank) (changed : List ℕ) : Prop :=
  ∀ k ∉ changed, b'.handle? k = b.handle? k ∧
    ∀ r, b.handle? k = some r → b'.texts.buffer r = b.texts.buffer r

theorem Keeps.refl (changed : List ℕ) : Keeps b b changed := fun _ _ => ⟨rfl, fun _ _ => rfl⟩

theorem Moved.keeps {o : Option TextRef} (m : Moved b b' i o) : Keeps b b' [i] := by
  intro k hk
  have ne : i ≠ k := fun eq => hk (by simp [eq])
  exact ⟨(m.handle k).trans (if_neg ne), fun r hr => m.kept r (mem_others (Ne.symm ne) hr)⟩

end Bank

open Bank Texts

variable {b b' : Bank} {o : Owners} {i j : ℕ} {r source : TextRef} {x y : Owned} {content : Bytes}

/-- A bank and a row of owners that show the same strings. -/
structure Agrees (b : Bank) (o : Owners) : Prop where
  held : Held b.texts b.handles
  size_eq : b.registers.size = o.registers.size
  bytes_eq : ∀ i, (b.handle? i).map b.texts.bytes = (o.owned? i).map Owned.bytes
  same_iff : ∀ i j,
    b.handle? i = b.handle? j ↔ (o.owned? i).map Owned.origin = (o.owned? j).map Owned.origin
  origin_lt : ∀ i x, o.owned? i = some x → x.origin < o.clock

namespace Agrees

theorem none_iff (h : Agrees b o) : b.handle? i = none ↔ o.owned? i = none := by
  have bytes := h.bytes_eq i
  cases hb : b.handle? i <;> cases ho : o.owned? i <;> simp_all

theorem owned (h : Agrees b o) (hr : b.handle? i = some r) :
    ∃ x, o.owned? i = some x ∧ x.bytes = b.texts.bytes r := by
  have bytes := h.bytes_eq i
  rw [hr] at bytes
  exact Option.map_eq_some_iff.mp bytes.symm

theorem owned?_put (hi : i < o.registers.size) (x : Option Owned) (k : ℕ) :
    (o.put i x).owned? k = if i = k then x else o.owned? k := by
  rw [Owners.owned?, Owners.put, Array.getElem?_setIfInBounds]
  split
  · simp
  · rfl

/-- Without the register nothing happens but that time passes. -/
theorem outside (h : Agrees b o) (hi : ¬ i < b.registers.size) (x : Option Owned) :
    Agrees b (o.put i x) := by
  have registers : (o.put i x).registers = o.registers :=
    Array.setIfInBounds_eq_of_size_le (by rw [← h.size_eq]; omega)
  have owned (k : ℕ) : (o.put i x).owned? k = o.owned? k := by
    rw [Owners.owned?, registers, Owners.owned?]
  constructor
  case held => exact h.held
  case size_eq => rw [registers]; exact h.size_eq
  case bytes_eq => intro k; rw [owned]; exact h.bytes_eq k
  case same_iff => intro k l; rw [owned, owned]; exact h.same_iff k l
  case origin_lt => intro k y hy; exact Nat.lt_succ_of_lt (h.origin_lt k y (owned k ▸ hy))

/-- A register that gets a handle and one that gets a string still agree, if the strings are the
same and so are the other registers that they are shared with. -/
theorem put {new : Option TextRef} {x : Option Owned} (h : Agrees b o) (m : Moved b b' i new)
    (bytes : new.map b'.texts.bytes = x.map Owned.bytes)
    (link : ∀ k, k ≠ i → (new = b.handle? k ↔ x.map Owned.origin = (o.owned? k).map Owned.origin))
    (early : ∀ y, x = some y → y.origin ≤ o.clock) : Agrees b' (o.put i x) := by
  have handle := m.handle
  have owned := owned?_put (h.size_eq ▸ m.lt) x
  constructor
  case held => exact m.held
  case size_eq =>
    rw [m.registers_eq, Array.size_setIfInBounds, Owners.put, Array.size_setIfInBounds]
    exact h.size_eq
  case bytes_eq =>
    intro k
    rw [handle, owned]
    by_cases eq : i = k
    · rw [if_pos eq, if_pos eq, bytes]
    · rw [if_neg eq, if_neg eq, ← h.bytes_eq k]
      apply Option.map_congr
      intro s hs
      exact congrArg _ (m.kept s (mem_others (Ne.symm eq) hs))
  case same_iff =>
    intro k l
    rw [handle, handle, owned, owned]
    by_cases hk : i = k <;> by_cases hl : i = l
    · simp only [if_pos hk, if_pos hl]
    · rw [if_pos hk, if_pos hk, if_neg hl, if_neg hl]
      exact link l (Ne.symm hl)
    · rw [if_neg hk, if_neg hk, if_pos hl, if_pos hl, eq_comm, link k (Ne.symm hk), eq_comm]
    · rw [if_neg hk, if_neg hk, if_neg hl, if_neg hl]
      exact h.same_iff k l
  case origin_lt =>
    intro k y hy
    rw [owned] at hy
    split at hy
    · exact Nat.lt_succ_of_le (early y hy)
    · exact Nat.lt_succ_of_lt (h.origin_lt k y hy)

theorem rewritten (h : Agrees b o) (w : Rewritten b b' i content) :
    Agrees b' (o.put i (some ⟨content, o.clock⟩)) := by
  obtain ⟨r, m, bytes, alone⟩ := w
  refine h.put m (congrArg some bytes) ?_ fun y hy => by simp [← Option.some.inj hy]
  intro k ne
  constructor
  · intro eq
    exact absurd (mem_others ne eq.symm) alone
  · intro eq
    obtain ⟨z, hz, origin⟩ := Option.map_eq_some_iff.mp eq.symm
    exact absurd (h.origin_lt k z hz) (by simp [origin])

/-- A register takes over the handle of another one, or keeps its own. -/
theorem shared (h : Agrees b o) (hr : b.handle? j = some r) (hy : o.owned? j = some y)
    (m : Moved b b' i (some r)) (same : b'.texts.bytes r = b.texts.bytes r) :
    Agrees b' (o.put i (some y)) := by
  refine h.put m ?_ ?_ fun z hz => ?_
  · have bytes := h.bytes_eq j
    rw [hr, hy] at bytes
    simpa [same] using bytes
  · intro k _
    have iff := h.same_iff j k
    rwa [hr, hy] at iff
  · obtain rfl := Option.some.inj hz
    exact Nat.le_of_lt (h.origin_lt j _ hy)

theorem create (h : Agrees b o) (buffer : Buffer) :
    Agrees (b.apply (.create i buffer)) (o.apply (.create i buffer)) ∧
      Keeps b (b.apply (.create i buffer)) [i] := by
  by_cases hi : i < b.registers.size
  · have fresh := h.held.fresh
    have kept : ∀ s ∈ b.handles, (b.texts.create buffer).1.buffer s = b.texts.buffer s := by
      intro s mem
      apply buffer_create_ne
      rintro rfl
      exact fresh mem
    obtain ⟨m, same⟩ := Moved.put hi h.held.create kept
    rw [buffer_create] at same
    refine ⟨h.rewritten ⟨_, m, congrArg Buffer.content same, ?_⟩, m.keeps⟩
    intro mem
    exact fresh ((handles_perm hi).mem_iff.mpr (List.mem_append_right _ mem))
  · have eq : b.apply (.create i buffer) = b := if_neg hi
    rw [eq]
    exact ⟨h.outside hi _, Keeps.refl _⟩

theorem share (h : Agrees b o) :
    Agrees (b.apply (.share i j)) (o.apply (.share i j)) ∧ Keeps b (b.apply (.share i j)) [i] := by
  cases hr : b.handle? j with
  | none =>
    simp only [Bank.apply, Owners.apply, hr, h.none_iff.mp hr]
    exact ⟨h, Keeps.refl _⟩
  | some r =>
    obtain ⟨y, hy, _⟩ := h.owned hr
    simp only [Bank.apply, Owners.apply, hr, hy]
    by_cases hi : i < b.registers.size
    · obtain ⟨m, same⟩ := Moved.put hi (h.held.share (mem_handles hr)) fun s _ => buffer_share
      rw [buffer_share] at same
      exact ⟨h.shared hr hy m (congrArg _ same), m.keeps⟩
    · rw [Bank.put, if_neg hi]
      exact ⟨h.outside hi _, Keeps.refl _⟩

theorem drop (h : Agrees b o) :
    Agrees (b.apply (.drop i)) (o.apply (.drop i)) ∧ Keeps b (b.apply (.drop i)) [i] := by
  by_cases hi : i < b.registers.size
  · obtain ⟨left, same⟩ := held_dropFrom (h.held.perm (handles_perm hi))
    have m : Moved b (b.apply (.drop i)) i none := Moved.place hi left same
    refine ⟨h.put m rfl ?_ (by simp), m.keeps⟩
    intro k _
    rw [eq_comm, h.none_iff, eq_comm (a := Option.map _ _), Option.map_none,
      Option.map_eq_none_iff]
  · have none : b.handle? i = none := by simp [handle?, hi]
    have eq : b.apply (.drop i) = b := by
      simp only [Bank.apply, dropFrom, none, Bank.place]
      rw [Array.setIfInBounds_eq_of_size_le (by omega)]
    rw [eq]
    exact ⟨h.outside hi _, Keeps.refl _⟩

theorem change (h : Agrees b o) {f : TextRef → Texts × TextRef} {g : Bytes → Bytes}
    (writes : ∀ r, b.handle? i = some r →
      Written b.texts (b.others i) (g (b.texts.bytes r)) (f r)) :
    Agrees (b.change i f) (o.change i g) ∧ Keeps b (b.change i f) [i] := by
  cases hr : b.handle? i with
  | none =>
    simp only [Bank.change, Owners.change, hr, h.none_iff.mp hr]
    exact ⟨h, Keeps.refl _⟩
  | some r =>
    obtain ⟨x, hx, bytes⟩ := h.owned hr
    have w := Rewritten.change hr (writes r hr)
    rw [← bytes] at w
    rw [Owners.change, hx]
    obtain ⟨s, m, rest⟩ := w
    exact ⟨h.rewritten ⟨s, m, rest⟩, m.keeps⟩

theorem combine (h : Agrees b o) {f : Texts → TextRef → TextRef → Texts × TextRef}
    {idle : TextRef → TextRef → Bytes → Prop} {content : Bytes → Bytes → Bytes}
    {g : Owned → Owned → Owned} (combines : Combines f idle content)
    (rest : ∀ r s x y, b.handle? i = some r → b.handle? j = some s → o.owned? i = some x →
      o.owned? j = some y → idle r s (b.texts.bytes s) → g x y = x)
    (busy : ∀ r s x y, b.handle? i = some r → b.handle? j = some s → o.owned? i = some x →
      o.owned? j = some y → ¬ idle r s (b.texts.bytes s) →
        g x y = ⟨content x.bytes y.bytes, o.clock⟩) :
    Agrees (b.combine i j f) (o.combine i j g) ∧ Keeps b (b.combine i j f) [i] := by
  cases hs : b.handle? j with
  | none =>
    simp only [Bank.combine, Owners.combine, hs, h.none_iff.mp hs]
    exact ⟨h, Keeps.refl _⟩
  | some s =>
    cases hr : b.handle? i with
    | none =>
      have ne : i ≠ j := by
        rintro rfl
        simp [hr] at hs
      obtain ⟨y, hy, _⟩ := h.owned hs
      simp only [Bank.combine, Bank.change, Owners.combine, hs, hr, hy, h.none_iff.mp hr, if_neg ne]
      exact ⟨h, Keeps.refl _⟩
    | some r =>
      obtain ⟨x, hx, bytesX⟩ := h.owned hr
      obtain ⟨y, hy, bytesY⟩ := h.owned hs
      simp only [Owners.combine, hx, hy]
      rcases combine_cases combines h.held hr hs with ⟨idle, m, same⟩ | ⟨writes, w⟩
      · rw [rest r s x y hr hs hx hy idle]
        exact ⟨h.shared hr hx m same, m.keeps⟩
      · rw [busy r s x y hr hs hx hy writes, bytesX, bytesY]
        obtain ⟨u, m, written⟩ := w
        exact ⟨h.rewritten ⟨u, m, written⟩, m.keeps⟩

theorem copyFrom (h : Agrees b o) :
    Agrees (b.apply (.copyFrom i j)) (o.apply (.copyFrom i j)) ∧
      Keeps b (b.apply (.copyFrom i j)) [i] := by
  have origins {r s : TextRef} {x y : Owned} (hr : b.handle? i = some r)
      (hs : b.handle? j = some s) (hx : o.owned? i = some x) (hy : o.owned? j = some y) :
      r = s ↔ x.origin = y.origin := by
    have iff := h.same_iff i j
    simpa [hr, hs, hx, hy] using iff
  apply h.combine combines_copyFrom
  · intro r s x y hr hs hx hy same
    have bytes_i := h.bytes_eq i
    have bytes_j := h.bytes_eq j
    rw [hr, hx] at bytes_i
    rw [hs, hy, ← same, bytes_i] at bytes_j
    have bytes : x.bytes = y.bytes := Option.some.inj bytes_j
    rw [if_pos ((origins hr hs hx hy).mp same), ← bytes]
  · intro r s x y hr hs hx hy other
    rw [if_neg fun eq => other ((origins hr hs hx hy).mpr eq)]

theorem extend (h : Agrees b o) :
    Agrees (b.apply (.extend i j)) (o.apply (.extend i j)) ∧
      Keeps b (b.apply (.extend i j)) [i] := by
  have bytes {s : TextRef} {y : Owned} (hs : b.handle? j = some s) (hy : o.owned? j = some y) :
      b.texts.bytes s = y.bytes := by
    have eq := h.bytes_eq j
    rw [hs, hy] at eq
    exact Option.some.inj eq
  apply h.combine combines_extend
  · intro r s x y _ hs _ hy none
    rw [bytes hs hy] at none
    simp [none]
  · intro r s x y _ hs _ hy some
    rw [bytes hs hy] at some
    rw [if_neg some]

end Agrees

/-- The register whose content a register has after an exchange. -/
def exchanged (size i j k : ℕ) : ℕ :=
  if i < size ∧ j < size then if k = i then j else if k = j then i else k else k

theorem getElem?_swapIfInBounds {α : Type} (xs : Array α) (i j k : ℕ) :
    (xs.swapIfInBounds i j)[k]? = xs[exchanged xs.size i j k]? := by
  rw [Array.swapIfInBounds_def, exchanged]
  by_cases hi : i < xs.size <;> by_cases hj : j < xs.size
  · simp only [hi, hj, dif_pos, and_self, if_pos, Array.getElem?_swap]
    by_cases hl : k = j
    · subst hl
      by_cases hk : k = i <;> simp [hk, hi]
    · have ne : j ≠ k := Ne.symm hl
      by_cases hk : i = k
      · subst hk
        simp [ne, hj]
      · simp [hk, hl, ne, Ne.symm hk]
  all_goals simp [hi, hj]

theorem Agrees.swap (h : Agrees b o) :
    Agrees (b.apply (.swap i j)) (o.apply (.swap i j)) ∧ Keeps b (b.apply (.swap i j)) [i, j] := by
  have handle (k : ℕ) : (b.apply (.swap i j)).handle? k =
      b.handle? (exchanged b.registers.size i j k) :=
    congrArg Option.join (getElem?_swapIfInBounds b.registers i j k)
  have owned (k : ℕ) : (o.apply (.swap i j)).owned? k =
      o.owned? (exchanged b.registers.size i j k) := by
    rw [h.size_eq]
    exact congrArg Option.join (getElem?_swapIfInBounds o.registers i j k)
  constructor
  · constructor
    case held =>
      apply h.held.perm
      have perm : (b.registers.swapIfInBounds i j).toList.Perm b.registers.toList := by
        rw [Array.swapIfInBounds_def]
        split
        · split
          · exact Array.perm_iff_toList_perm.mp (Array.swap_perm _ _)
          · exact List.Perm.refl _
        · exact List.Perm.refl _
      exact (perm.filterMap id).symm
    case size_eq =>
      show (b.registers.swapIfInBounds i j).size = (o.registers.swapIfInBounds i j).size
      rw [Array.size_swapIfInBounds, Array.size_swapIfInBounds]
      exact h.size_eq
    case bytes_eq => intro k; rw [handle, owned]; exact h.bytes_eq _
    case same_iff => intro k l; rw [handle, handle, owned, owned]; exact h.same_iff _ _
    case origin_lt => intro k y hy; exact h.origin_lt _ y (owned k ▸ hy)
  · intro k hk
    simp only [List.mem_cons, List.not_mem_nil, or_false, not_or] at hk
    have fixed : exchanged b.registers.size i j k = k := by
      simp [exchanged, hk.1, hk.2]
    exact ⟨by rw [handle, fixed], fun _ _ => rfl⟩

/-- Every action does the same to a bank and to the owners, and leaves other registers alone. -/
theorem Agrees.apply (h : Agrees b o) (a : Bank.Action) :
    Agrees (b.apply a) (o.apply a) ∧ Keeps b (b.apply a) a.writes := by
  have held {i : ℕ} {r : TextRef} (hr : b.handle? i = some r) : Held b.texts (r :: b.others i) :=
    h.held.perm (handles_perm_cons hr)
  cases a with
  | create i buffer => exact h.create buffer
  | share i j => exact h.share
  | drop i => exact h.drop
  | swap i j => exact h.swap
  | update i offset bytes =>
    exact h.change (f := fun r => b.texts.update r offset bytes)
      (g := fun old => old.take offset ++ bytes) fun r hr => (held hr).update offset bytes
  | push i bytes =>
    exact h.change (f := fun r => b.texts.push r bytes) (g := fun old => old ++ bytes)
      fun r hr => (held hr).push bytes
  | copyFrom i j => exact h.copyFrom
  | extend i j => exact h.extend

theorem Agrees.run (h : Agrees b o) (actions : List Bank.Action) :
    Agrees (b.run actions) (o.run actions) := by
  induction actions generalizing b o with
  | nil => exact h
  | cons a actions ih => exact ih (h.apply a).1

theorem Agrees.empty (n : ℕ) : Agrees (Bank.empty n) (Owners.empty n) := by
  have none (k : ℕ) : (Bank.empty n).handle? k = none ∧ (Owners.empty n).owned? k = none := by
    by_cases hk : k < n <;> simp [handle?, Bank.empty, Owners.owned?, Owners.empty, hk]
  constructor
  case held =>
    have handles : (Bank.empty n).handles = [] := by simp [Bank.handles, Bank.empty]
    rw [handles]
    exact Held.empty
  case size_eq => simp [Bank.empty, Owners.empty]
  case bytes_eq => simp [none]
  case same_iff => simp [none]
  case origin_lt => simp [none]

theorem Agrees.holders_eq (h : Agrees b o) (r : TextRef) :
    b.texts.holders r = b.registers.count (some r) := by
  rw [h.held r, Bank.handles, ← Array.count_toList]
  induction b.registers.toList with
  | nil => rfl
  | cons s l ih =>
    rw [filterMap_cons_id, List.count_append, ih, List.count_cons]
    cases s <;> simp [List.count_cons, Nat.add_comm]

/-- Whatever is done with the registers of a bank, they show the strings of the owners. Two of them
have one buffer exactly if they have one origin, the holders of a buffer are the registers that have
it, and no action changes what the registers have that it does not write to. -/
theorem Bank.run_empty_eq_owners (n : ℕ) (actions : List Bank.Action) :
    let b := (Bank.empty n).run actions
    let o := (Owners.empty n).run actions
    (∀ i, (b.handle? i).map b.texts.bytes = (o.owned? i).map Owned.bytes) ∧
      (∀ i j, b.handle? i = b.handle? j ↔
        (o.owned? i).map Owned.origin = (o.owned? j).map Owned.origin) ∧
      (∀ i r, b.handle? i = some r → b.texts.holders r = b.registers.count (some r)) ∧
      ∀ a, ∀ k ∉ a.writes, (b.apply a).handle? k = b.handle? k ∧
        ∀ r, b.handle? k = some r → (b.apply a).texts.buffer r = b.texts.buffer r := by
  intro b o
  have agrees : Agrees b o := (Agrees.empty n).run actions
  exact ⟨agrees.bytes_eq, agrees.same_iff, fun _ r _ => agrees.holders_eq r,
    fun a => (agrees.apply a).2⟩

end AwkCore
