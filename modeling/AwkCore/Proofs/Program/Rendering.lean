import AwkCore.Proofs.Program.Faces
import AwkCore.Proofs.Scanner.Rendered

/-!
# Programs that are rendered

A program whose tokens end a line is rendered and scanned again: the tokens are the same, and there
are no warnings. A rendered program has no carriage returns and ends in a line feed, so that the
scanner sees its bytes as they stand.
-/
namespace AwkCore

/-- The scanner sees all bytes of a text. -/
def Bytes.Seen (text : Bytes) : Prop := ∀ b ∈ text, b ≠ Byte.carriageReturn

namespace Bytes.Seen

variable {s t : Bytes} {b : Byte}

theorem append (hs : Seen s) (ht : Seen t) : Seen (s ++ t) :=
  fun b mem => (List.mem_append.mp mem).elim (hs b) (ht b)

theorem cons (ne : b ≠ Byte.carriageReturn) (hs : Seen s) : Seen (b :: s) :=
  List.forall_mem_cons.mpr ⟨ne, hs⟩

theorem of_isWord (word : s.IsWord) : Seen s := by
  rintro b mem rfl
  have part := word.2 _ mem
  contradiction

theorem escaped (b : Byte) : Seen b.escaped := by
  have digit : ∀ n < 16, Byte.hexDigit n ≠ Byte.carriageReturn := by decide
  have lt := b.toNat_lt
  refine .cons (by decide) (.cons (by decide) ?_)
  exact .cons (digit _ (by omega)) (.cons (digit _ (by omega)) (by simp [Seen]))

theorem enclose (d : Scanner.Delimiter) (text : Bytes) : Seen (d.enclose text) := by
  have delimiter : d.byte ≠ Byte.carriageReturn := by cases d <;> decide
  refine .append (.cons delimiter ?_) (.cons delimiter (by simp [Seen]))
  intro c mem
  obtain ⟨b, _, mem⟩ := List.mem_flatMap.mp mem
  exact escaped b c mem

theorem of_takes {stage : Numeral.Stage} (takes : stage.takes s = true) : Seen s := by
  induction s generalizing stage with
  | nil => simp [Seen]
  | cons b s ih =>
    rw [Numeral.Stage.takes] at takes
    cases next : stage.next? b with
    | none => simp [next] at takes
    | some stage' =>
      simp only [next] at takes
      refine .cons ?_ (ih takes)
      rintro rfl
      cases stage <;> contradiction

theorem of_operator {o : Operator} (spelled : o.Spelled s) : Seen s := by
  rintro _ mem rfl
  revert mem
  cases spelled with
  | own => cases o <;> decide
  | stars => decide
  | starsAssign => decide

end Bytes.Seen

namespace Token

variable {divides : Bool} {previous : Kind} {t : Token} {ts : List Token}

theorem Spelled.seen (spelled : t.Spelled divides) : t.written.Seen := by
  cases spelled with
  | newline => exact .cons (by decide) (by simp [Bytes.Seen])
  | keyword word => exact .of_isWord word
  | builtin word => exact .of_isWord word
  | function word => exact .of_isWord word
  | name word => exact .of_isWord word
  | string => exact .enclose _ _
  | regex => exact .enclose _ _
  | number start row =>
    refine .cons ?_ (.of_takes row)
    rintro rfl
    revert start
    decide
  | operator spelled => exact .of_operator spelled

theorem gap_seen (previous : Kind) (t : Token) : (t.gap previous).Seen := by
  unfold gap
  split
  · simp [Bytes.Seen]
  split
  · simp [Bytes.Seen]
  · exact .cons (by decide) (by simp [Bytes.Seen])

/-- A rendered chain is seen as it stands, and it ends a line. -/
theorem Chain.seen (chain : Chain previous ts) :
    (renderAfter previous ts).Seen ∧ (renderAfter previous ts).getLast? = some Byte.newline := by
  induction chain with
  | @last previous t spelled ends =>
    refine ⟨((gap_seen previous t).append spelled.seen).append (by simp [Bytes.Seen, renderAfter]), ?_⟩
    rw [renderAfter, renderAfter, spelled.written_newline ends, List.append_nil,
      List.getLast?_concat]
  | @more previous t u ts spelled _ _ ih =>
    refine ⟨((gap_seen previous t).append spelled.seen).append ih.1, ?_⟩
    rw [renderAfter, List.getLast?_append, ih.2]
    rfl

theorem renderAfter_concat_ending (previous : Kind) (ts : List Token) (l : Location) :
    renderAfter previous (ts ++ [ending l]) = renderAfter previous ts := by
  induction ts generalizing previous with
  | nil => rfl
  | cons t ts ih => rw [List.cons_append, renderAfter, renderAfter, ih]

end Token

namespace Program

variable {text : Bytes}

theorem faces_bytes (joined : Bool) (seen : text.Seen) :
    (faces joined text).map Prod.fst = text := by
  induction text generalizing joined with
  | nil => rfl
  | cons b bs ih =>
    obtain ⟨ne, seen⟩ := List.forall_mem_cons.mp seen
    rw [faces, if_neg ne, List.map_cons, ih _ seen]

theorem faces_unbroken (joined : Bool) (seen : text.Seen) :
    (faces joined text).IsChain fun a b => a.1 ≠ Byte.newline → b.2 = true := by
  induction text generalizing joined with
  | nil => exact .nil
  | cons b bs ih =>
    obtain ⟨ne, seen⟩ := List.forall_mem_cons.mp seen
    rw [faces, if_neg ne]
    refine List.isChain_cons.mpr ⟨?_, ih _ seen⟩
    cases bs with
    | nil => simp [faces]
    | cons c bs =>
      have ne' := seen c List.mem_cons_self
      simp [faces, ne']

/-- A text without carriage returns that ends a line is scanned as it stands. -/
theorem inline_seen (seen : text.Seen) (ends : text.getLast? = some Byte.newline) :
    Scanner.bytesOf (Stream.ofProgram (inline text)).glyphs = text ∧
      Scanner.Unbroken (Stream.ofProgram (inline text)).glyphs := by
  have faces := inline_faces text
  rw [closing, if_pos ends, List.append_nil] at faces
  constructor
  · have bytes := congrArg (List.map Prod.fst) faces
    rw [faces_bytes false seen, List.map_map] at bytes
    exact bytes
  · have chain := faces_unbroken false seen
    rw [← faces, List.isChain_map] at chain
    exact chain

/-- A chain is scanned back from its rendering, up to the end of input. -/
theorem reading_chain {ts : List Token} (chain : Token.Chain .endOfInput ts) :
    ∃ us l, (Scanner.ofProgram (inline (Token.renderAfter .endOfInput ts))).reading =
      ⟨us ++ [Token.ending l], none, []⟩ ∧ us.map Token.lexeme = ts.map Token.lexeme := by
  obtain ⟨seen, ends⟩ := chain.seen
  obtain ⟨bytes, unbroken⟩ := inline_seen seen ends
  set s := Scanner.ofProgram (inline (Token.renderAfter .endOfInput ts))
  obtain ⟨us, passes, same⟩ := Scanner.passes_render s.stream.finish chain bytes unbroken
  have reads := passes.reads (.at_end _ _)
  exact ⟨us, _, Scanner.Readable.reading_eq ⟨_, rfl⟩ reads, same⟩

/-- A program whose last token is the end of a line gives its tokens again when it is rendered, and
no warning. -/
theorem reading_render {p : Program} {ts : List Token} {line e : Token}
    {warnings : List Diagnostic}
    (read : (Scanner.ofProgram p).reading = ⟨ts ++ [line, e], none, warnings⟩)
    (ends : line.kind = .newline) :
    ∃ us, (Scanner.ofProgram (inline (Token.render (ts ++ [line, e])))).reading = ⟨us, none, []⟩ ∧
      us.map Token.lexeme = (ts ++ [line, e]).map Token.lexeme := by
  obtain ⟨rest, l, rfl, passes, _⟩ := Scanner.passes_of_reading read ends
  obtain ⟨us, l', reading, same⟩ := reading_chain (passes.chain (by simp))
  rw [List.append_cons, Token.render, Token.renderAfter_concat_ending]
  refine ⟨_, reading, ?_⟩
  rw [List.map_append, List.map_append, same]
  rfl

theorem reading_render_call :
    let text := ascii "f(1)/\"\\q\" ~ /=/ # note"
    let token (kind : Kind) (text : Bytes) : Token := ⟨kind, text, Binary64.zero, ⟨inlineName, 1⟩⟩
    let ts := [token .function (ascii "f"), token (.operator .leftParen) (ascii "("),
      ⟨.number, ascii "1", Binary64.ofBits 0x3ff0000000000000, ⟨inlineName, 1⟩⟩,
      token (.operator .rightParen) (ascii ")"), token (.operator .divide) (ascii "/"),
      token .string (ascii "q"), token (.operator .matching) (ascii "~"), token .regex (ascii "=")]
    let line := token .newline [Byte.newline]
    let e := Token.ending ⟨inlineName, 1⟩
    let warnings := [⟨⟨inlineName, 1⟩, "'\\q' treated as plain 'q'"⟩]
    (Scanner.ofProgram (inline text)).reading = ⟨ts ++ [line, e], none, warnings⟩ ∧
      ∃ us, (Scanner.ofProgram (inline (Token.render (ts ++ [line, e])))).reading =
          ⟨us, none, []⟩ ∧ us.map Token.lexeme = (ts ++ [line, e]).map Token.lexeme := by
  intro text token ts line e warnings
  have read : (Scanner.ofProgram (inline text)).reading = ⟨ts ++ [line, e], none, warnings⟩ := by
    rw [Scanner.reading, Scanner.advances_eq_within (Nat.lt_succ_self _)]
    decide +kernel
  exact ⟨read, reading_render read rfl⟩

end Program

end AwkCore
