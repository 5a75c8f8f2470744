import AwkCore.Proofs.Scanner.Reads

/-!
# Scanning in another place

A scan does not look at the places of the glyphs that it reads. When the glyphs stand in other places,
the tokens, the warnings and the failure that they give stand in the other places too, and they are
the same in all else.
-/
namespace AwkCore

variable (f : Location → Location)

def Token.moved (t : Token) : Token := { t with location := f t.location }

def Diagnostic.moved (d : Diagnostic) : Diagnostic := { d with location := f d.location }

def Failure.moved : Failure → Failure
  | lexical location message => lexical (f location) message
  | failure => failure

def Reading.moved (r : Reading) : Reading :=
  ⟨r.tokens.map (Token.moved f), r.failure.map (Failure.moved f),
    r.warnings.map (Diagnostic.moved f)⟩

theorem Reading.moved_after (ts : List Token) (warnings : List Diagnostic) (r : Reading) :
    (r.after ts warnings).moved f =
      (r.moved f).after (ts.map (Token.moved f)) (warnings.map (Diagnostic.moved f)) := by
  simp [Reading.moved, Reading.after]

variable {f} in
theorem Token.Like.eq_moved {t u : Token} (like : t.Like (fun l m => m = f l) u) :
    u = t.moved f := by
  obtain ⟨kind, text, value, place⟩ := like
  cases u
  simp_all [Token.moved]

namespace Scanner

variable {f} {L M : Location → Location → Prop} {divides : Bool} {finish finish' : Location}
  {previous : Kind} {gs hs : List Glyph} {r : Reading}

/-- Glyphs with the same bytes and joints are read alike: no number is cut in them. -/
theorem readToken_alike (place : L finish finish') (alike : Alike L gs hs)
    (joints : Alike M hs gs) :
    (readToken finish divides gs).Like L (readToken finish' divides hs) := by
  rcases readToken_cases place alike with ⟨_, like⟩ | ⟨⟨p, h, inside, at_h, loose⟩, _⟩
  · exact like
  · obtain ⟨lt, rfl⟩ := List.getElem?_eq_some_iff.mp at_h
    have lt' : p < gs.length := joints.length_eq ▸ lt
    have joined := readToken_joined inside (List.getElem?_eq_getElem lt')
    have tight := (joints.get lt lt').joined joined
    rw [List.get_eq_getElem] at tight
    rw [tight] at loose
    contradiction

/-- Glyphs that are the same as others but for their places. -/
structure Moved (f : Location → Location) (gs hs : List Glyph) : Prop where
  forth : Alike (fun l m => m = f l) gs hs
  back : Alike (fun m l => m = f l) hs gs

theorem eq_map_moved {ds es : List Diagnostic}
    (like : List.Forall₂ (Diagnostic.Like fun l m => m = f l) ds es) :
    es = ds.map (Diagnostic.moved f) := by
  induction like with
  | nil => rfl
  | @cons d e ds es like _ ih =>
    obtain ⟨place, message⟩ := like
    rw [List.map_cons, ← ih]
    cases e
    simp_all [Diagnostic.moved]

/-- A step that gives the same in another place; what it leaves behind a failure does not matter. -/
inductive Step.Moved (f : Location → Location) : Step → Step → Prop
  | token (t : Token) (warnings : List Diagnostic) {rest rest' : List Glyph}
      (behind : Scanner.Moved f rest rest') :
    Moved f ⟨.ok t, warnings, rest⟩
      ⟨.ok (t.moved f), warnings.map (Diagnostic.moved f), rest'⟩
  | refused (failure : Failure) (warnings : List Diagnostic) (rest rest' : List Glyph) :
    Moved f ⟨.error failure, warnings, rest⟩
      ⟨.error (failure.moved f), warnings.map (Diagnostic.moved f), rest'⟩

theorem readToken_moved (finish : Location) (divides : Bool) (moved : Moved f gs hs) :
    (readToken finish divides gs).Moved f (readToken (f finish) divides hs) := by
  have forth : (readToken finish divides gs).Like (fun l m => m = f l)
    (readToken (f finish) divides hs) := readToken_alike rfl moved.forth moved.back
  have back : (readToken (f finish) divides hs).Like (fun m l => m = f l)
    (readToken finish divides gs) := readToken_alike rfl moved.back moved.forth
  generalize readToken finish divides gs = a at forth back
  generalize readToken (f finish) divides hs = b at forth back
  obtain ⟨outcome, warnings, rest⟩ := a
  obtain ⟨outcome', warnings', rest'⟩ := b
  obtain rfl := eq_map_moved forth.warnings
  cases forth.outcome with
  | token like =>
    obtain rfl := like.eq_moved
    exact .token _ _ ⟨forth.rest, back.rest⟩
  | refused place message =>
    obtain rfl := place
    exact .refused _ _ _ _

/-- A reading in another place. -/
theorem Reads.moved (reads : Reads finish previous gs r) (moved : Moved f gs hs) :
    Reads (f finish) previous hs (r.moved f) := by
  induction reads generalizing hs with
  | @refused previous _ _ _ _ read =>
    have step := readToken_moved finish previous.producesValue moved
    rw [read] at step
    generalize read' : readToken (f finish) _ hs = b at step
    cases step with
    | refused => exact .refused read'
  | @last previous _ _ _ _ read ends =>
    have step := readToken_moved finish previous.producesValue moved
    rw [read] at step
    generalize read' : readToken (f finish) _ hs = b at step
    cases step with
    | token => exact .last read' ends
  | @more previous _ _ _ _ _ read more _ ih =>
    have step := readToken_moved finish previous.producesValue moved
    rw [read] at step
    generalize read' : readToken (f finish) _ hs = b at step
    rw [Reading.moved_after]
    cases step with
    | token _ _ behind => exact .more read' more (ih behind)

end Scanner

end AwkCore
