import AwkCore.Proofs.Texts.Owners

/-!
# Room for strings

Every buffer that strings are made in and written to ends in a NUL and has room for it. A string that
is written by its sole owner keeps its buffer, whose capacity never falls and at least doubles when it
rises; for any other owner the string is put into a buffer of its own, without room to spare.
-/
namespace AwkCore

namespace Buffer

/-- The NUL that ends a buffer stands behind its string, and both have room. -/
structure WellFormed (b : Buffer) : Prop where
  ended : b.data = b.content ++ [0]
  fits : b.length < b.capacity

/-- How buffers come into being: for some bytes, with room to spare, or out of a text that is given up
together with its room. -/
inductive Made : Buffer → Prop
  | ofBytes (content : Bytes) : Made (Buffer.ofBytes content)
  | withCapacity (n : ℕ) : Made (Buffer.withCapacity n)
  | takenOver (content : Bytes) (room : ℕ) : Made (Buffer.holding content room)

/-- From one buffer to another one that has room for a number of bytes: the capacity does not fall, it
rises only if it has to, and then at least to its double. -/
structure Enlarges (old new : Buffer) (needed : ℕ) : Prop where
  kept : old.capacity ≤ new.capacity
  raised_iff : old.capacity < new.capacity ↔ old.capacity < needed
  raised : old.capacity < new.capacity → new.capacity = max needed (2 * old.capacity)
  doubled : old.capacity < new.capacity → 2 * old.capacity ≤ new.capacity

variable {b : Buffer}

theorem wellFormed_ending {content : Bytes} {capacity : ℕ} (fits : content.length < capacity) :
    WellFormed ⟨content ++ [0], capacity⟩ := by
  constructor
  · rw [Buffer.content, List.dropLast_concat]
  · rw [length, List.length_append, List.length_singleton, Nat.add_sub_cancel]
    exact fits

theorem wellFormed_holding (content : Bytes) (room : ℕ) : (holding content room).WellFormed :=
  wellFormed_ending (Nat.le_max_right _ _)

theorem Made.wellFormed (made : b.Made) : b.WellFormed := by
  cases made with
  | ofBytes content => exact wellFormed_holding content 0
  | withCapacity n => exact wellFormed_holding [] (n + 1)
  | takenOver content room => exact wellFormed_holding content room

theorem capacity_setContent (b : Buffer) (content : Bytes) : (b.setContent content).capacity =
    if b.capacity < content.length + 1 then max (content.length + 1) (2 * b.capacity)
    else b.capacity := by
  unfold setContent reserve
  split <;> rfl

theorem wellFormed_setContent (b : Buffer) (content : Bytes) : (b.setContent content).WellFormed := by
  have fits : content.length < (b.setContent content).capacity := by
    rw [capacity_setContent]
    split
    · exact Nat.le_max_left _ _
    · omega
  exact wellFormed_ending fits

theorem enlarges_setContent (b : Buffer) (content : Bytes) :
    Enlarges b (b.setContent content) (content.length + 1) := by
  have capacity := b.capacity_setContent content
  by_cases short : b.capacity < content.length + 1
  · rw [if_pos short] at capacity
    have raised : b.capacity < (b.setContent content).capacity := by
      rw [capacity]
      exact Nat.lt_of_lt_of_le short (Nat.le_max_left _ _)
    exact ⟨Nat.le_of_lt raised, by simp only [raised, short], fun _ => capacity,
      fun _ => capacity ▸ Nat.le_max_right _ _⟩
  · rw [if_neg short] at capacity
    have kept : ¬ b.capacity < (b.setContent content).capacity := by omega
    exact ⟨Nat.le_of_eq capacity.symm, by simp only [kept, short], fun raised => (kept raised).elim,
      fun raised => (kept raised).elim⟩

/-- What is shown of a string goes up to its first NUL, or is all of it if there is none. -/
theorem WellFormed.untilNul (wellFormed : b.WellFormed) : 0 ∉ b.untilNul ∧
    (b.untilNul = b.content ∨ ∃ rest, b.content = b.untilNul ++ 0 :: rest) := by
  rw [Buffer.untilNul, wellFormed.ended]
  generalize b.content = content
  induction content with
  | nil => exact ⟨List.not_mem_nil, .inl rfl⟩
  | cons c content ih =>
    by_cases nul : c = 0
    · subst nul
      exact ⟨List.not_mem_nil, .inr ⟨content, rfl⟩⟩
    · obtain ⟨free, shown⟩ := ih
      have further : ((c :: content) ++ [0]).takeWhile (· ≠ 0) =
          c :: (content ++ [0]).takeWhile (· ≠ 0) := by simp [nul]
      rw [further]
      refine ⟨by simpa [Ne.symm nul] using free, ?_⟩
      rcases shown with all | ⟨rest, split⟩
      · exact .inl (congrArg _ all)
      · exact .inr ⟨rest, congrArg (c :: ·) split⟩

end Buffer

namespace Texts

variable {t : Texts} {r source : TextRef} {hs : List TextRef} {content : Bytes} {b : Buffer}
  {q : Texts × TextRef}

/-- All buffers of a pool are well-formed. -/
def WellFormed (t : Texts) : Prop := ∀ i s, t.shared? i = some s → s.content.WellFormed

theorem WellFormed.buffer (wellFormed : t.WellFormed) (r : TextRef) : (t.buffer r).WellFormed := by
  rw [Texts.buffer, Pool.get?]
  cases shared : t.shared? r.place with
  | none => exact Buffer.wellFormed_holding [] 0
  | some s => exact wellFormed _ s shared

theorem WellFormed.create (wellFormed : t.WellFormed) (new : b.WellFormed) :
    (t.create b).1.WellFormed := by
  intro i s shared
  rw [Texts.create, Pool.shared?_add] at shared
  split at shared
  · cases shared
    exact new
  · exact wellFormed i s shared

theorem WellFormed.share (wellFormed : t.WellFormed) (r : TextRef) : (t.share r).WellFormed := by
  intro i s shared
  rw [Texts.share, Pool.retain, Pool.shared?_modify] at shared
  split at shared
  · obtain ⟨u, found, rfl⟩ := Option.map_eq_some_iff.mp shared
    exact wellFormed i u found
  · exact wellFormed i s shared

theorem WellFormed.drop (wellFormed : t.WellFormed) (r : TextRef) : (t.drop r).WellFormed := by
  intro i s shared
  rw [Texts.drop, Pool.shared?_release] at shared
  split at shared
  · obtain ⟨u, found, left⟩ := Option.bind_eq_some_iff.mp shared
    split at left
    · cases left
    · cases left
      exact wellFormed i u found
  · exact wellFormed i s shared

theorem WellFormed.replace (wellFormed : t.WellFormed) (r : TextRef) (content : Bytes) :
    (t.replace r content).1.WellFormed := by
  unfold Texts.replace
  split
  · intro i s shared
    rw [Pool.set, Pool.shared?_modify] at shared
    split at shared
    · obtain ⟨u, _, rfl⟩ := Option.map_eq_some_iff.mp shared
      exact Buffer.wellFormed_setContent _ content
    · exact wellFormed i s shared
  · exact (wellFormed.drop r).create (Buffer.wellFormed_holding content 0)

theorem WellFormed.extend (wellFormed : t.WellFormed) (r source : TextRef) :
    (t.extend r source).1.WellFormed := by
  unfold Texts.extend
  split
  · exact wellFormed
  · exact ((wellFormed.share source).replace r _).drop source

theorem WellFormed.copyFrom (wellFormed : t.WellFormed) (r source : TextRef) :
    (t.copyFrom r source).1.WellFormed := by
  unfold Texts.copyFrom
  split
  · exact wellFormed
  · exact wellFormed.replace r _

/-- Where a string goes that is written while its buffer counts some holders: into that buffer for a sole
one, else into another one that is made for it. -/
structure Lands (t : Texts) (r : TextRef) (holders : ℕ) (content : Bytes) (q : Texts × TextRef) : Prop
    where
  own : holders = 1 → q.2 = r ∧ q.1.buffer q.2 = (t.buffer r).setContent content
  fresh : holders ≠ 1 → q.2 ≠ r ∧ q.1.buffer q.2 = Buffer.ofBytes content

theorem buffer_set (there : 0 < t.holders r) (b : Buffer) : buffer (Pool.set t r.place b) r = b := by
  obtain ⟨s, shared, _⟩ := shared?_of_holders there
  rw [buffer, Pool.get?, Pool.set, Pool.shared?_modify, if_pos rfl, shared]
  rfl

theorem Held.lands (held : Held t (r :: hs)) (content : Bytes) :
    Lands t r (t.holders r) content (t.replace r content) := by
  have count := held r
  rw [List.count_cons_self] at count
  constructor
  · intro sole
    rw [Texts.replace, if_pos sole]
    exact ⟨rfl, buffer_set (by omega) _⟩
  · intro shared
    have other : r ∈ hs := List.count_pos_iff.mp (by omega)
    rw [Texts.replace, if_neg shared]
    have new : (⟨(t.drop r).fresh⟩ : TextRef) ∉ hs := held.drop.fresh
    refine ⟨fun same => new ?_, buffer_create⟩
    rw [← same] at other
    exact other

/-- A handle that is held meanwhile leaves the buffer as it is when it goes. -/
theorem Lands.letGo {n : ℕ} (lands : Lands (t.share source) r n content q)
    (written : Written (t.share source) (source :: hs) content q) :
    Lands t r n content (q.1.drop source, q.2) := by
  have after := written.held.perm (List.Perm.swap source q.2 hs)
  have buffer : (q.1.drop source).buffer q.2 = q.1.buffer q.2 :=
    after.buffer_drop List.mem_cons_self
  constructor
  · intro sole
    obtain ⟨same, own⟩ := lands.own sole
    rw [buffer_share] at own
    exact ⟨same, buffer.trans own⟩
  · intro shared
    obtain ⟨other, fresh⟩ := lands.fresh shared
    exact ⟨other, buffer.trans fresh⟩

theorem holders_share (held : 0 < t.holders source) (r : TextRef) :
    (t.share source).holders r = t.holders r + if source = r then 1 else 0 := by
  obtain ⟨s, shared, _⟩ := shared?_of_holders held
  rw [holders, Pool.holders, shared?_share, holders, Pool.holders]
  by_cases same : source = r
  · subst same
    rw [if_pos rfl, if_pos rfl, shared]
    rfl
  · rw [if_neg same, if_neg same, Nat.add_zero]

theorem Held.holders_pos (held : Held t hs) (mem : r ∈ hs) : 0 < t.holders r := by
  rw [held r]
  exact List.count_pos_iff.mpr mem

theorem push_eq (t : Texts) (r : TextRef) (bytes : Bytes) :
    t.push r bytes = t.replace r (t.bytes r ++ bytes) := by
  rw [Texts.push, Texts.update, length_buffer, List.take_length]

theorem Held.lands_extend (held : Held t (r :: hs)) (mem : source ∈ r :: hs)
    (some : t.bytes source ≠ []) :
    Lands t r ((t.share source).holders r) (t.bytes r ++ t.bytes source) (t.extend r source) := by
  have shared := (held.share mem).perm (List.Perm.swap r source hs)
  have bytes : (t.share source).bytes r = t.bytes r := congrArg Buffer.content buffer_share
  rw [Texts.extend, if_neg some, push_eq, bytes]
  exact (shared.lands _).letGo (shared.replace _)

end Texts

namespace Bank

open Texts (Held Written Lands)

variable {b : Bank} {a : Action} {i j : ℕ} {r source : TextRef} {content : Bytes}

section WellFormed

variable {texts : Texts}

theorem wellFormed_dropFrom (wellFormed : texts.WellFormed) (b : Bank) (i : ℕ) :
    (b.dropFrom texts i).WellFormed := by
  unfold dropFrom
  split
  · exact wellFormed.drop _
  · exact wellFormed

theorem wellFormed_put (before : b.texts.WellFormed) (wellFormed : texts.WellFormed) (i : ℕ)
    (r : TextRef) : (b.put texts i r).texts.WellFormed := by
  unfold put
  split
  · exact wellFormed_dropFrom wellFormed b i
  · exact before

theorem wellFormed_change (before : b.texts.WellFormed) {f : TextRef → Texts × TextRef}
    (keeps : ∀ r, (f r).1.WellFormed) (i : ℕ) : (b.change i f).texts.WellFormed := by
  unfold change
  split
  · exact before
  · exact keeps _

theorem wellFormed_combine (before : b.texts.WellFormed)
    {f : Texts → TextRef → TextRef → Texts × TextRef}
    (keeps : ∀ {t : Texts}, t.WellFormed → ∀ r source, (f t r source).1.WellFormed) (i j : ℕ) :
    (b.combine i j f).texts.WellFormed := by
  unfold combine
  split
  · exact before
  · split
    · exact wellFormed_change before (fun r => (keeps (before.share _) r _).drop _) i
    · exact wellFormed_change before (fun r => keeps before r _) i

theorem wellFormed_apply (before : b.texts.WellFormed)
    (made : ∀ i buffer, a = .create i buffer → buffer.Made) : (b.apply a).texts.WellFormed := by
  cases a with
  | create i buffer => exact wellFormed_put before (before.create (made i buffer rfl).wellFormed) i _
  | share i j =>
    rw [apply]
    split
    · exact before
    · exact wellFormed_put before (before.share _) i _
  | drop i => exact wellFormed_dropFrom before b i
  | swap i j => exact before
  | update i offset bytes => exact wellFormed_change before (fun r => before.replace r _) i
  | push i bytes => exact wellFormed_change before (fun r => before.replace r _) i
  | copyFrom i j => exact wellFormed_combine before Texts.WellFormed.copyFrom i j
  | extend i j => exact wellFormed_combine before Texts.WellFormed.extend i j

theorem wellFormed_run {actions : List Action} (before : b.texts.WellFormed)
    (made : ∀ i buffer, .create i buffer ∈ actions → buffer.Made) :
    (b.run actions).texts.WellFormed := by
  induction actions generalizing b with
  | nil => exact before
  | cons a actions ih =>
    have first := wellFormed_apply (a := a) before fun i buffer same =>
      made i buffer (same ▸ List.mem_cons_self)
    exact ih first fun i buffer mem => made i buffer (List.mem_cons_of_mem _ mem)

theorem wellFormed_empty (n : ℕ) : (Bank.empty n).texts.WellFormed := by
  intro i s shared
  simp [Bank.empty, Pool.empty, Pool.shared?] at shared

end WellFormed

/-- What an action writes: the register and its handle, and the string that it is to have. Nothing is
written where a string is copied to itself, or another one is empty that is to be appended. -/
inductive Writes (b : Bank) : Action → ℕ → TextRef → Bytes → Prop
  | update {i offset : ℕ} {bytes : Bytes} {r : TextRef} (at_i : b.handle? i = some r) :
    Writes b (.update i offset bytes) i r ((b.texts.bytes r).take offset ++ bytes)
  | push {i : ℕ} {bytes : Bytes} {r : TextRef} (at_i : b.handle? i = some r) :
    Writes b (.push i bytes) i r (b.texts.bytes r ++ bytes)
  | copyFrom {i j : ℕ} {r source : TextRef} (at_i : b.handle? i = some r)
      (at_j : b.handle? j = some source) (other : r ≠ source) :
    Writes b (.copyFrom i j) i r (b.texts.bytes source)
  | extend {i j : ℕ} {r source : TextRef} (at_i : b.handle? i = some r)
      (at_j : b.handle? j = some source) (some : b.texts.bytes source ≠ []) :
    Writes b (.extend i j) i r (b.texts.bytes r ++ b.texts.bytes source)

/-- The actions that would write a string but have nothing to write. -/
inductive Idles (b : Bank) : Action → ℕ → TextRef → Prop
  | copyFrom {i j : ℕ} {r : TextRef} (at_i : b.handle? i = some r) (at_j : b.handle? j = some r) :
    Idles b (.copyFrom i j) i r
  | extend {i j : ℕ} {r source : TextRef} (at_i : b.handle? i = some r)
      (at_j : b.handle? j = some source) (nothing : b.texts.bytes source = []) :
    Idles b (.extend i j) i r

/-- Whether a handle is the only one on its string while an action runs. A string that is appended to
itself has another one meanwhile. -/
def Sole (b : Bank) (r : TextRef) : Action → Prop
  | .extend i j => i ≠ j ∧ b.texts.holders r = 1
  | _ => b.texts.holders r = 1

/-- An action that writes puts one handle, on the string that it has written, in the place of another. -/
structure Rewrites (b : Bank) (a : Action) (i : ℕ) (r : TextRef) (content : Bytes)
    (q : Texts × TextRef) : Prop where
  applied : b.apply a = b.place q.1 i (some q.2)
  written : Written b.texts (b.others i) content q
  own : b.Sole r a → q.2 = r ∧ q.1.buffer q.2 = (b.texts.buffer r).setContent content
  fresh : ¬ b.Sole r a → q.2 ≠ r ∧ q.1.buffer q.2 = Buffer.ofBytes content

theorem Rewrites.of_lands {n : ℕ} {q : Texts × TextRef} (applied : b.apply a = b.place q.1 i (some q.2))
    (written : Written b.texts (b.others i) content q) (lands : Lands b.texts r n content q)
    (sole : b.Sole r a ↔ n = 1) : Rewrites b a i r content q :=
  ⟨applied, written, fun own => lands.own (sole.mp own), fun fresh => lands.fresh (mt sole.mpr fresh)⟩

theorem Writes.rewrites (writes : b.Writes a i r content) (held : Held b.texts b.handles) :
    ∃ q, b.Rewrites a i r content q := by
  cases writes with
  | update at_i =>
    have out := held.perm (handles_perm_cons at_i)
    refine ⟨_, .of_lands ?_ (out.replace _) (out.lands _) Iff.rfl⟩
    simp only [apply, change, at_i]
    rfl
  | push at_i =>
    have out := held.perm (handles_perm_cons at_i)
    refine ⟨_, .of_lands ?_ (out.replace _) (out.lands _) Iff.rfl⟩
    simp only [apply, change, at_i, Texts.push_eq]
  | copyFrom at_i at_j other =>
    have out := held.perm (handles_perm_cons at_i)
    have apart : i ≠ _ := fun same => other (Option.some.inj (at_i.symm.trans (same ▸ at_j)))
    refine ⟨_, .of_lands ?_ (out.replace _) (out.lands _) Iff.rfl⟩
    simp only [apply, combine, change, at_i, at_j, if_neg apart, Texts.copyFrom, if_neg other]
  | @extend _ j _ source at_i at_j some =>
    have out := held.perm (handles_perm_cons at_i)
    by_cases same : i = j
    · subst same
      obtain rfl : r = source := Option.some.inj (at_i.symm.trans at_j)
      have shared := out.share List.mem_cons_self
      have bytes : (b.texts.share r).bytes r = b.texts.bytes r :=
        congrArg Buffer.content Texts.buffer_share
      have some' : (b.texts.share r).bytes r ≠ [] := bytes ▸ some
      have written := ((shared.extend List.mem_cons_self).resolve_left fun idle => some' idle.1).2
      have lands := (shared.lands_extend List.mem_cons_self some').letGo written
      rw [bytes] at written lands
      refine ⟨_, .of_lands ?_ written.letGo lands ?_⟩
      · simp only [apply, combine, change, at_i, if_true]
      · have first := Texts.holders_share (out.holders_pos List.mem_cons_self) r
        have second := Texts.holders_share (shared.holders_pos List.mem_cons_self) r
        rw [if_pos rfl] at first second
        exact iff_of_false (fun sole => sole.1 rfl) (by omega)
    · have mem : source ∈ r :: b.others i :=
        List.mem_cons_of_mem _ (mem_others (Ne.symm same) at_j)
      have written := ((out.extend mem).resolve_left fun idle => some idle.1).2
      refine ⟨_, .of_lands ?_ written (out.lands_extend mem some) ?_⟩
      · simp only [apply, combine, change, at_i, at_j, if_neg same]
      · have count := out r
        have holders := Texts.holders_share (out.holders_pos mem) r
        rw [List.count_cons_self] at count
        by_cases twice : source = r
        · have other := List.count_pos_iff.mpr (mem_others (Ne.symm same) (twice ▸ at_j))
          rw [if_pos twice] at holders
          exact iff_of_false (fun sole => by have := sole.2; omega) (by omega)
        · rw [if_neg twice, Nat.add_zero] at holders
          rw [holders]
          exact ⟨fun sole => sole.2, fun sole => ⟨same, sole⟩⟩

theorem Writes.at_register (writes : b.Writes a i r content) : b.handle? i = some r := by
  cases writes <;> assumption

theorem handle?_place {texts : Texts} (inside : i < b.registers.size) (o : Option TextRef) :
    (b.place texts i o).handle? i = o := by
  simp [handle?, place, inside]

/-- Two registers that have nothing to combine: one more handle is held and let go of, if they are one. -/
theorem combine_idle {f : Texts → TextRef → TextRef → Texts × TextRef} (held : Held b.texts b.handles)
    (at_i : b.handle? i = some r) (at_j : b.handle? j = some source)
    (idle : f b.texts r source = (b.texts, r))
    (idle' : f (b.texts.share source) r source = (b.texts.share source, r)) :
    (b.combine i j f).handle? i = some r ∧ (b.combine i j f).texts.buffer r = b.texts.buffer r ∧
      (b.combine i j f).texts.holders r = b.texts.holders r := by
  have inside := lt_of_handle at_i
  by_cases same : i = j
  · subst same
    obtain rfl : r = source := Option.some.inj (at_i.symm.trans at_j)
    have shared := held.share (mem_handles at_i)
    simp only [combine, change, at_i, if_true, idle']
    refine ⟨handle?_place inside _, ?_, ?_⟩
    · exact (shared.buffer_drop (mem_handles at_i)).trans Texts.buffer_share
    · exact (shared.drop r).trans (held r).symm
  · simp only [combine, change, at_i, at_j, if_neg same, idle]
    exact ⟨handle?_place inside _, rfl, rfl⟩

theorem Idles.keeps (idles : b.Idles a i r) (held : Held b.texts b.handles) :
    (b.apply a).handle? i = some r ∧ (b.apply a).texts.buffer r = b.texts.buffer r ∧
      (b.apply a).texts.holders r = b.texts.holders r := by
  cases idles with
  | copyFrom at_i at_j =>
    have idle (t : Texts) : t.copyFrom r r = (t, r) := if_pos rfl
    exact combine_idle held at_i at_j (idle _) (idle _)
  | @extend _ _ _ source at_i at_j nothing =>
    have idle {t : Texts} (nothing : t.bytes source = []) : t.extend r source = (t, r) := by
      rw [Texts.extend, if_pos nothing]
    have nothing' : (b.texts.share source).bytes source = [] :=
      (congrArg Buffer.content Texts.buffer_share).trans nothing
    exact combine_idle (f := Texts.extend) held at_i at_j (idle nothing) (idle nothing')

/-- In any run, with strings that come into being in the usual ways, every handle is on a well-formed
buffer, so that it shows its string up to the first NUL. A string that is written by its sole owner stays
in its buffer, which is enlarged as the string needs it. For any other owner it is put into a new buffer
of the size that it needs. Copying a string to itself and appending an empty one write nothing. -/
theorem run_empty_wellFormed (n : ℕ) (actions : List Action)
    (made : ∀ i buffer, .create i buffer ∈ actions → buffer.Made) :
    let b := (Bank.empty n).run actions
    (∀ i r, b.handle? i = some r →
      let s := b.texts.buffer r
      s.length < s.capacity ∧ s.data = s.content ++ [0] ∧ 0 ∉ s.untilNul ∧
        (s.untilNul = s.content ∨ ∃ rest, s.content = s.untilNul ++ 0 :: rest)) ∧
    (∀ a i r content, b.Writes a i r content →
      let after := b.apply a
      ∃ r', after.handle? i = some r' ∧ after.texts.bytes r' = content ∧
        (b.Sole r a → r' = r ∧
          Buffer.Enlarges (b.texts.buffer r) (after.texts.buffer r') (content.length + 1)) ∧
        (¬ b.Sole r a → r' ∉ b.handles ∧ after.texts.holders r' = 1 ∧
          (after.texts.buffer r').capacity = content.length + 1)) ∧
    ∀ a i r, b.Idles a i r → (b.apply a).handle? i = some r ∧
      (b.apply a).texts.buffer r = b.texts.buffer r ∧
      (b.apply a).texts.holders r = b.texts.holders r := by
  intro b
  have held : Held b.texts b.handles := ((Agrees.empty n).run actions).held
  have wellFormed : b.texts.WellFormed := wellFormed_run (wellFormed_empty n) made
  refine ⟨fun i r _ => ?_, fun a i r content writes => ?_, fun a i r idles => idles.keeps held⟩
  · obtain ⟨ended, fits⟩ := wellFormed.buffer r
    exact ⟨fits, ended, (wellFormed.buffer r).untilNul⟩
  · obtain ⟨q, applied, written, own, fresh⟩ := writes.rewrites held
    have at_i := writes.at_register
    have out := held.perm (handles_perm_cons at_i)
    rw [applied]
    refine ⟨q.2, handle?_place (lt_of_handle at_i) _, written.bytes_eq, fun sole => ?_, fun shared => ?_⟩
    · obtain ⟨same, buffer⟩ := own sole
      exact ⟨same, buffer ▸ Buffer.enlarges_setContent _ content⟩
    · obtain ⟨other, buffer⟩ := fresh shared
      refine ⟨fun mem => ?_, ?_, ?_⟩
      · rcases List.mem_cons.mp ((handles_perm_cons at_i).mem_iff.mp mem) with same | others
        · exact other same
        · exact written.alone others
      · refine (written.held q.2).trans ?_
        rw [List.count_cons_self, List.count_eq_zero.mpr written.alone]
      · exact (congrArg Buffer.capacity buffer).trans (Nat.max_eq_right (Nat.zero_le _))

/-- A string that two registers shared until the second of them wrote to it. The buffer that it got then
has no room to spare, so the next byte doubles it. -/
theorem run_empty_wellFormed_doubled :
    let actions : List Action :=
      [.create 0 (Buffer.ofBytes (ascii "ab")), .share 1 0, .push 1 (ascii "c")]
    let b := (Bank.empty 2).run actions
    let after := b.apply (.push 1 (ascii "d"))
    (∀ i buffer, .create i buffer ∈ actions → buffer.Made) ∧
      ∃ r r', b.handle? 1 = some r ∧ after.handle? 1 = some r' ∧
        after.texts.bytes r' = ascii "abcd" ∧ (b.texts.buffer r).capacity = 4 ∧
        (after.texts.buffer r').capacity = 8 := by
  intro actions b after
  have made : ∀ i buffer, .create i buffer ∈ actions → buffer.Made := by
    intro i buffer mem
    simp only [actions, List.mem_cons, List.not_mem_nil, reduceCtorEq, or_false] at mem
    cases mem
    exact .ofBytes _
  have at_1 : b.handle? 1 = some ⟨1⟩ := by decide +kernel
  have capacity : (b.texts.buffer ⟨1⟩).capacity = 4 := by decide +kernel
  obtain ⟨-, written, -⟩ := run_empty_wellFormed 2 actions made
  obtain ⟨r', at_1', bytes, own, -⟩ := written _ 1 ⟨1⟩ _ (.push at_1)
  have sole : b.Sole ⟨1⟩ (.push 1 (ascii "d")) := by
    show b.texts.holders ⟨1⟩ = 1
    decide +kernel
  obtain ⟨-, enlarged⟩ := own sole
  have content : b.texts.bytes ⟨1⟩ ++ ascii "d" = ascii "abcd" := by decide +kernel
  rw [content] at bytes enlarged
  have short : (b.texts.buffer ⟨1⟩).capacity < (ascii "abcd").length + 1 := by
    rw [capacity]
    decide
  have raised := enlarged.raised (enlarged.raised_iff.mpr short)
  exact ⟨made, ⟨1⟩, r', at_1, at_1', bytes, capacity, raised.trans (by rw [capacity]; decide)⟩

end Bank

end AwkCore
