import AwkCore.Proofs.Scanner.Lexemes

/-!
# Faces

A face is what a glyph shows apart from its place: the byte, and whether it is joined to the byte
before it. The faces of a program come from its text alone, unit by unit. So what a scan reads
depends on the faces of the program and on nothing else.
-/
namespace AwkCore

abbrev Faces := List (Byte × Bool)

def Glyph.face (g : Glyph) : Byte × Bool := (g.byte, g.joined)

namespace Program

/-- The faces of a text. A byte is not joined after a carriage return, and on a new line. -/
def faces : Bool → Bytes → Faces
  | _, [] => []
  | joined, b :: bs =>
    if b = Byte.carriageReturn then faces false bs
    else (b, joined) :: faces (b ≠ Byte.newline) bs

/-- The face of the line feed that is supplied at the end of a text. -/
def closing (text : Bytes) : Faces :=
  if text.getLast? = some Byte.newline then [] else [(Byte.newline, false)]

/-- The faces of a line, which does not look for line feeds. -/
def lineFaces : Bool → Bytes → Faces
  | _, [] => []
  | joined, b :: bs =>
    if b = Byte.carriageReturn then lineFaces false bs else (b, joined) :: lineFaces true bs

theorem ofBytes_faces (l : Location) (n : ℕ) (joined : Bool) (bs : Bytes) :
    (Stream.ofBytes l n joined bs).map Glyph.face = lineFaces joined bs := by
  induction bs generalizing joined with
  | nil => rfl
  | cons b bs ih =>
    rw [Stream.ofBytes, lineFaces]
    split
    · exact ih false
    · rw [List.map_cons, ih true]
      rfl

theorem ofLines_faces (n : ℕ) (ls : List Line) :
    (Stream.ofLines n ls).map Glyph.face = ls.flatMap fun l => lineFaces false l.bytes := by
  induction ls generalizing n with
  | nil => rfl
  | cons l ls ih =>
    rw [Stream.ofLines, List.map_append, ofBytes_faces, ih, List.flatMap_cons]

/-- The lines of a text have its faces, whatever the first of them is joined to. -/
theorem cut_faces (joined : Bool) (text : Bytes) :
    ((cut text).head?.elim [] (lineFaces joined)) ++ (cut text).tail.flatMap (lineFaces false) =
      faces joined text := by
  induction text generalizing joined with
  | nil => rfl
  | cons b bs ih =>
    rw [cut, faces]
    by_cases newline : b = Byte.newline
    · subst newline
      have other : Byte.newline ≠ Byte.carriageReturn := by decide
      have rest : (cut bs).flatMap (lineFaces false) = faces false bs := by
        rw [← ih false]
        cases cut bs <;> simp
      simp [lineFaces, other, rest]
    · rw [if_neg newline]
      simp only [ne_eq, newline, not_false_eq_true, decide_true, ← ih]
      cases cut bs with
      | nil => by_cases cr : b = Byte.carriageReturn <;> simp [lineFaces, cr]
      | cons l ls => by_cases cr : b = Byte.carriageReturn <;> simp [lineFaces, cr]

theorem flatten_cut (text : Bytes) : (cut text).flatten = text := by
  induction text with
  | nil => rfl
  | cons b bs ih =>
    rw [cut]
    split
    · rw [List.flatten_cons, ih]
      rfl
    · cases rest : cut bs with
      | nil =>
        rw [rest] at ih
        rw [← ih]
        rfl
      | cons l ls =>
        rw [rest] at ih
        rw [← ih]
        rfl

theorem cut_ne_nil {text : Bytes} (nonempty : text ≠ []) : cut text ≠ [] := by
  intro none
  have flatten := flatten_cut text
  rw [none] at flatten
  exact nonempty flatten.symm

theorem faces_append (joined : Bool) (text : Bytes) :
    ∃ after, ∀ rest, faces joined (text ++ rest) = faces joined text ++ faces after rest := by
  induction text generalizing joined with
  | nil => exact ⟨joined, fun _ => rfl⟩
  | cons b bs ih =>
    by_cases cr : b = Byte.carriageReturn
    · obtain ⟨after, split⟩ := ih false
      refine ⟨after, fun rest => ?_⟩
      rw [List.cons_append, faces, faces, if_pos cr, if_pos cr, split]
    · obtain ⟨after, split⟩ := ih (b ≠ Byte.newline)
      refine ⟨after, fun rest => ?_⟩
      rw [List.cons_append, faces, faces, if_neg cr, if_neg cr, split, List.cons_append]

theorem faces_head (text : Bytes) {a : Byte × Bool} (h : (faces false text)[0]? = some a) :
    a.2 = false := by
  induction text with
  | nil => cases h
  | cons b bs ih =>
    rw [faces] at h
    split at h
    · exact ih h
    · rw [← Option.some.inj h]

theorem linesOf_bytes (unit : String) (text : Bytes) :
    (linesOf unit text).map Line.bytes = cut text := by
  apply List.ext_getElem?
  intro i
  simp [linesOf, Function.comp_def]

theorem linesOf_faces (unit : String) (text : Bytes) :
    ((linesOf unit text).flatMap fun l => lineFaces false l.bytes) = faces false text := by
  have lines : ((linesOf unit text).flatMap fun l => lineFaces false l.bytes) =
      (cut text).flatMap (lineFaces false) := by
    rw [← linesOf_bytes unit, List.flatMap_map]
  rw [lines, ← cut_faces]
  cases cut text <;> simp

def readable (file : String × Bytes) : SourceUnit := ⟨file.1, .ok file.2⟩

theorem ofUnits_readable (start : Location) (files : List (String × Bytes)) :
    (ofUnits start (files.map readable)).lines =
        files.flatMap (fun file => linesOf file.1 file.2) ∧
      ∃ place, (ofUnits start (files.map readable)).ending = .ok place := by
  induction files generalizing start with
  | nil => exact ⟨rfl, start, rfl⟩
  | cons file files ih =>
    obtain ⟨lines, ending⟩ := ih ⟨file.1, (linesOf file.1 file.2).length⟩
    refine ⟨?_, ending⟩
    rw [List.flatMap_cons, ← lines]
    rfl

theorem ofUnits_text (start : Location) (files : List (String × Bytes)) :
    (ofUnits start (files.map readable)).text = files.flatMap Prod.snd := by
  rw [text, (ofUnits_readable start files).1, List.flatMap_assoc]
  congr 1
  funext file
  rw [List.flatMap_def, linesOf_bytes, flatten_cut]

theorem inline_text (text : Bytes) : (inline text).text = text := by
  have whole := ofUnits_text ⟨inlineName, 0⟩ [(inlineName, text)]
  rwa [List.flatMap_singleton] at whole

/-- The faces of a program: those of its units one after another, and of its end. -/
theorem ofUnits_faces (start : Location) (files : List (String × Bytes)) :
    (Stream.ofProgram (ofUnits start (files.map readable))).glyphs.map Glyph.face =
      files.flatMap (fun file => faces false file.2) ++ closing (files.flatMap Prod.snd) := by
  obtain ⟨lines, place, ending⟩ := ofUnits_readable start files
  rw [Stream.ofProgram, List.map_append, ofLines_faces, lines, List.flatMap_assoc]
  simp only [linesOf_faces]
  congr 1
  simp only [Stream.supplied, ending, ofUnits_text, closing]
  split <;> rfl

theorem inline_faces (text : Bytes) :
    (Stream.ofProgram (inline text)).glyphs.map Glyph.face = faces false text ++ closing text := by
  have faces := ofUnits_faces ⟨inlineName, 0⟩ [(inlineName, text)]
  rwa [List.flatMap_singleton, List.flatMap_singleton] at faces

end Program

/-- Two lists of faces with the same bytes, of which the second lacks the joints at some places. What
is said of a place only counts where the first has a joint. -/
structure Loosened (as bs : Faces) (places : List ℕ) : Prop where
  alike : List.Forall₂ (fun a b => a.1 = b.1 ∧ (b.2 = true → a.2 = true)) as bs
  loose : ∀ (p : ℕ) (a b : Byte × Bool), as[p]? = some a → bs[p]? = some b → a.2 = true →
    (b.2 = false ↔ p ∈ places)

namespace Loosened

variable {as bs : Faces} {places : List ℕ}

theorem refl (as : Faces) : Loosened as as [] := by
  constructor
  case alike => exact List.forall₂_same.mpr fun _ _ => ⟨rfl, id⟩
  case loose =>
    intro p a b at_a at_b joined
    obtain rfl := Option.some.inj (at_a.symm.trans at_b)
    simp [joined]

theorem cons (h : Loosened as bs places) (byte : Byte) (joined joined' : Bool)
    (weaker : joined' = true → joined = true) :
    Loosened ((byte, joined) :: as) ((byte, joined') :: bs)
      (if joined = joined' then places.map (· + 1) else 0 :: places.map (· + 1)) := by
  have later (p : ℕ) : (p + 1 ∈ if joined = joined' then places.map (· + 1)
      else 0 :: places.map (· + 1)) ↔ p ∈ places := by
    split <;> simp
  constructor
  case alike => exact .cons ⟨rfl, weaker⟩ h.alike
  case loose =>
    intro p a b at_a at_b here
    cases p with
    | zero =>
      obtain rfl := Option.some.inj at_a
      obtain rfl := Option.some.inj at_b
      have joined_eq : joined = true := here
      cases joined' <;> simp [joined_eq]
    | succ p =>
      rw [later]
      exact h.loose p a b at_a at_b here

/-- Nothing is said of the first place where there is no joint. -/
theorem zero (h : Loosened as bs places) (head : ∀ a, as[0]? = some a → a.2 = false) :
    Loosened as bs (0 :: places) := by
  constructor
  case alike => exact h.alike
  case loose =>
    intro p a b at_a at_b joined
    have ne : p ≠ 0 := by
      rintro rfl
      rw [head a at_a] at joined
      contradiction
    rw [h.loose p a b at_a at_b joined, List.mem_cons]
    simp [ne]

theorem congr (h : Loosened as bs places) {places' : List ℕ}
    (same : ∀ p, p ∈ places ↔ p ∈ places') : Loosened as bs places' :=
  ⟨h.alike, fun p a b at_a at_b joined => (h.loose p a b at_a at_b joined).trans (same p)⟩

theorem closing (h : Loosened as bs places) (text : Bytes) :
    Loosened (as ++ Program.closing text) (bs ++ Program.closing text) places := by
  have length := h.alike.length_eq
  have fresh : ∀ c ∈ Program.closing text, c.2 = false := by
    intro c mem
    unfold Program.closing at mem
    split at mem
    · contradiction
    · rw [List.mem_singleton.mp mem]
  constructor
  case alike => exact List.rel_append h.alike (List.forall₂_same.mpr fun _ _ => ⟨rfl, id⟩)
  case loose =>
    intro p a b at_a at_b joined
    rcases Nat.lt_or_ge p as.length with lt | ge
    · rw [List.getElem?_append_left lt] at at_a
      rw [List.getElem?_append_left (length ▸ lt)] at at_b
      exact h.loose p a b at_a at_b joined
    · rw [List.getElem?_append_right ge] at at_a
      rw [fresh a (List.mem_of_getElem? at_a)] at joined
      contradiction

end Loosened

namespace Scanner

/-- Scanners with the same token behind them, where the glyphs of the second lack some joints of the
first, have the same lexemes exactly if no number of the first spans one of these joints. -/
theorem lexemes_eq_iff_of_loosened {s u : Scanner} {places : List ℕ} (readable : s.Readable)
    (readable' : u.Readable) (kind_eq : s.current.kind = u.current.kind)
    (loosened : Loosened (s.stream.glyphs.map Glyph.face) (u.stream.glyphs.map Glyph.face) places) :
    s.lexemes = u.lexemes ↔ ∀ span ∈ s.numberSpans, ∀ e ∈ places, ¬ Splits e span := by
  have alike := loosened.alike
  rw [List.forall₂_map_left_iff, List.forall₂_map_right_iff] at alike
  have abreast : Abreast s.stream.glyphs u.stream.glyphs s u := by
    constructor
    case readable => exact readable
    case readable' => exact readable'
    case kind_eq => exact kind_eq
    case alike => exact alike.imp fun g h like => ⟨like.1, trivial, like.2⟩
    case behind => exact ⟨[], [], rfl, rfl, rfl⟩
  refine abreast.lexemes_eq_iff fun i g h at_g at_h joined => ?_
  apply loosened.loose i g.face h.face _ _ joined
  · rw [List.getElem?_map, at_g]
    rfl
  · rw [List.getElem?_map, at_h]
    rfl

/-- Programs that can be read to their ends, of which the second lacks some joints of the first,
have the same lexemes exactly if no number of the first spans one of these joints. -/
theorem lexemes_ofProgram_eq_iff {p q : Program} {places : List ℕ}
    (p_ends : ∃ place, p.ending = .ok place) (q_ends : ∃ place, q.ending = .ok place)
    (loosened : Loosened ((Stream.ofProgram p).glyphs.map Glyph.face)
      ((Stream.ofProgram q).glyphs.map Glyph.face) places) :
    (ofProgram p).lexemes = (ofProgram q).lexemes ↔
      ∀ span ∈ (ofProgram p).numberSpans, ∀ e ∈ places, ¬ Splits e span :=
  lexemes_eq_iff_of_loosened p_ends q_ends rfl loosened

end Scanner

end AwkCore
