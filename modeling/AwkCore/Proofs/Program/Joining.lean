import AwkCore.Proofs.Program.Faces

/-!
# Files that are joined

The files of a program read as one file with their contents joined, but for the numbers: a number
ends with the file in which it starts, even where the next file goes on with it. Two ways of giving
a program are compared by the lexemes they are scanned into.
-/
namespace AwkCore

namespace Program

/-- The bytes of a text that the scanner sees. -/
def visible (text : Bytes) : ℕ := text.countP (· ≠ Byte.carriageReturn)

theorem faces_length (joined : Bool) (text : Bytes) : (faces joined text).length = visible text := by
  induction text generalizing joined with
  | nil => rfl
  | cons b bs ih =>
    rw [faces]
    by_cases cr : b = Byte.carriageReturn
    · rw [if_pos cr, ih]
      simp [visible, cr]
    · rw [if_neg cr, List.length_cons, ih]
      simp [visible, cr]

/-- Where the files end among the bytes that the scanner sees. -/
def fileEnds : List Bytes → List ℕ
  | [] => []
  | text :: texts => visible text :: (fileEnds texts).map (visible text + ·)

/-- Only the first byte of a text can be joined to what is before it, whatever is behind the text. -/
theorem loosened_start_append (joined : Bool) (text : Bytes) {rest : Faces}
    (fresh : ∀ a, rest[0]? = some a → a.2 = false) :
    Loosened (faces joined text ++ rest) (faces false text ++ rest) [0] := by
  cases text with
  | nil => exact (Loosened.refl rest).zero fresh
  | cons b bs =>
    rw [faces, faces]
    split
    · refine (Loosened.refl _).zero fun a at_front => ?_
      cases behind : faces false bs with
      | nil => exact fresh a (by simpa [behind] using at_front)
      | cons c cs => exact faces_head bs (by simpa [behind] using at_front)
    · have first := (Loosened.refl (faces (b ≠ Byte.newline) bs ++ rest)).cons b joined false (by simp)
      cases joined with
      | false => exact first.zero fun a h => by rw [← Option.some.inj h]
      | true => exact first

theorem loosened_start (joined : Bool) (text : Bytes) :
    Loosened (faces joined text) (faces false text) [0] := by
  have fresh : ∀ a, ([] : Faces)[0]? = some a → a.2 = false := nofun
  simpa using loosened_start_append joined text fresh

theorem loosened_append {as bs as' bs' : Faces} {places : List ℕ} (first : Loosened as bs [0])
    (second : Loosened as' bs' (0 :: places)) :
    Loosened (as ++ as') (bs ++ bs') (0 :: as.length :: places.map (as.length + ·)) := by
  have length := first.alike.length_eq
  constructor
  case alike => exact List.rel_append first.alike second.alike
  case loose =>
    intro p a b at_a at_b joined
    rcases Nat.lt_or_ge p as.length with lt | ge
    · rw [List.getElem?_append_left lt] at at_a
      rw [List.getElem?_append_left (length ▸ lt)] at at_b
      rw [first.loose p a b at_a at_b joined]
      have before : p ≠ as.length ∧ ∀ q ∈ places, as.length + q ≠ p :=
        ⟨Nat.ne_of_lt lt, fun q _ => by omega⟩
      simp only [List.mem_cons, List.not_mem_nil, or_false, before.1, false_or, List.mem_map]
      exact ⟨.inl, fun h => h.elim id fun ⟨q, mem, eq⟩ => absurd eq (before.2 q mem)⟩
    · obtain ⟨q, rfl⟩ := Nat.exists_eq_add_of_le ge
      rw [List.getElem?_append_right (by omega), Nat.add_sub_cancel_left] at at_a
      rw [List.getElem?_append_right (by omega), ← length, Nat.add_sub_cancel_left] at at_b
      rw [second.loose q a b at_a at_b joined]
      simp
      omega

/-- Files that are read apart lack the joints at their ends. -/
theorem loosened_files (joined : Bool) (texts : List Bytes) :
    Loosened (faces joined texts.flatten) (texts.flatMap (faces false)) (0 :: fileEnds texts) := by
  induction texts generalizing joined with
  | nil => exact (Loosened.refl []).zero fun a h => nomatch h
  | cons text texts ih =>
    obtain ⟨after, split⟩ := faces_append joined text
    have both := loosened_append (loosened_start joined text) (ih after)
    rw [faces_length] at both
    rw [List.flatten_cons, split, List.flatMap_cons]
    exact both

/-- The program that one file makes with the contents of all. -/
def ofJoined (name : String) (files : List (String × Bytes)) : Program :=
  ofUnits ⟨"", 0⟩ ([(name, files.flatMap Prod.snd)].map readable)

def ofFiles (files : List (String × Bytes)) : Program := ofUnits ⟨"", 0⟩ (files.map readable)

/-- Files scan like one file with their contents joined exactly if no number in that file spans a
place where one of them ends. -/
theorem lexemes_files_eq_joined_iff (name : String) (files : List (String × Bytes)) :
    (Scanner.ofProgram (ofFiles files)).lexemes =
        (Scanner.ofProgram (ofJoined name files)).lexemes ↔
      ∀ span ∈ (Scanner.ofProgram (ofJoined name files)).numberSpans,
        ∀ e ∈ fileEnds (files.map Prod.snd), ¬ Scanner.Splits e span := by
  have loosened := (loosened_files false (files.map Prod.snd)).closing (files.flatMap Prod.snd)
  have joined := ofUnits_faces ⟨"", 0⟩ [(name, files.flatMap Prod.snd)]
  have apart := ofUnits_faces ⟨"", 0⟩ files
  rw [← List.flatMap_def, List.flatMap_map] at loosened
  rw [List.flatMap_singleton, List.flatMap_singleton] at joined
  rw [← apart, ← joined] at loosened
  have iff := Scanner.lexemes_ofProgram_eq_iff (ofUnits_readable _ _).2 (ofUnits_readable _ _).2
    loosened
  refine eq_comm.trans (iff.trans ?_)
  constructor
  · intro whole span mem e end_mem
    exact whole span mem e (List.mem_cons_of_mem _ end_mem)
  · intro whole span mem e end_mem
    rcases List.mem_cons.mp end_mem with rfl | end_mem
    · exact fun splits => absurd splits.1 (Nat.not_lt_zero _)
    · exact whole span mem e end_mem

theorem lexemes_files_ne_joined :
    (Scanner.ofProgram (ofFiles [("a.awk", [0x31]), ("b.awk", [0x32])])).lexemes ≠
      (Scanner.ofProgram (ofJoined "ab.awk" [("a.awk", [0x31]), ("b.awk", [0x32])])).lexemes := by
  intro same
  have first (files : List (String × Bytes)) :=
    Scanner.head_lexemes (s := Scanner.ofProgram (ofFiles files)) (ofUnits_readable _ files).2
  have heads := congrArg List.head? same
  rw [ofJoined, ← ofFiles, first, first] at heads
  revert heads
  decide

end Program

end AwkCore
