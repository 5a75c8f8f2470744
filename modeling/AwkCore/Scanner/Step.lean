import AwkCore.Numeral
import AwkCore.Scanner.Literal
import AwkCore.Token.Vocabulary

/-!
# One token

`readToken` takes a token from the front of a list of glyphs. It is a function of the glyphs, of
whether a slash divides here, and of the place where the program ends.
-/
namespace AwkCore.Scanner

/-- What reading a token gives: the token or a complaint, the warnings on the way, and the glyphs
that are left. -/
structure Step where
  outcome : Except Failure Token
  warnings : List Diagnostic
  rest : List Glyph

/-- A token made of the glyphs between two states, without a value. -/
def Step.plain (kind : Kind) (text : Bytes) (location : Location) (rest : List Glyph) : Step :=
  ⟨.ok ⟨kind, text, Binary64.zero, location⟩, [], rest⟩

def Step.refuse (location : Location) (message : String) (rest : List Glyph) : Step :=
  ⟨.error (.lexical location message), [], rest⟩

def skipBlanks (gs : List Glyph) : List Glyph := gs.dropWhile (Byte.isBlank ·.byte)

/-- The state in which blanks and continued lines leave the scanner: at a token, or at a backslash
with something else than a line feed after it. -/
inductive Spacing
  | token (rest : List Glyph)
  | strayBackslash (location : Location) (rest : List Glyph)

/-- Skip blanks and backslashes that continue a line. -/
def skipSpacing : List Glyph → Spacing
  | [] => .token []
  | [g] =>
    if Byte.isBlank g.byte then .token []
    else if g.byte = Byte.backslash then .strayBackslash g.location []
    else .token [g]
  | g :: h :: gs =>
    if Byte.isBlank g.byte then skipSpacing (h :: gs)
    else if g.byte = Byte.backslash then
      if h.byte = Byte.newline then skipSpacing gs else .strayBackslash g.location (h :: gs)
    else .token (g :: h :: gs)

def skipComment : List Glyph → List Glyph
  | [] => []
  | g :: gs => if g.byte = 0x23 then gs.dropWhile (·.byte ≠ Byte.newline) else g :: gs

def bytesOf (gs : List Glyph) : Bytes := gs.map Glyph.byte

/-- A word is a keyword, a built-in function, a function when a parenthesis follows at once, or a
variable; blanks after a variable are skipped. -/
def readWord (location : Location) (gs : List Glyph) : Step :=
  let word := bytesOf (gs.takeWhile (Byte.isNamePart ·.byte))
  let rest := gs.dropWhile (Byte.isNamePart ·.byte)
  match Vocabulary.keyword? word with
  | some k => .plain (.keyword k) word location rest
  | none =>
    match Vocabulary.builtin? word with
    | some b => .plain (.builtin b) word location rest
    | none =>
      if (rest.head?.map Glyph.byte) = some 0x28 then .plain .function word location rest
      else .plain .name word location (skipBlanks rest)

def unexpected (location : Location) (b : Byte) (rest : List Glyph) : Step :=
  .refuse location ("Unexpected token '" ++ Utf8.lossy [b] ++ "'") rest

/-- The bytes that stand together with those before them and may go on with a number. -/
def numberTail (stage : Numeral.Stage) : List Glyph → Bytes
  | [] => []
  | g :: gs =>
    if g.joined then
      match stage.next? g.byte with
      | some stage => g.byte :: numberTail stage gs
      | none => []
    else []

/-- The bytes in which a number is looked for: a digit or a point, and what may belong to it. -/
def numberWindow (g : Glyph) (gs : List Glyph) : Bytes :=
  g.byte :: numberTail (if g.byte = 0x2e then .fraction else .whole) gs

def readNumber (location : Location) (g : Glyph) (gs : List Glyph) : Step :=
  match Numeral.read? (numberWindow g gs) with
  | some n =>
    ⟨.ok ⟨.number, (numberWindow g gs).take n.length, n.number, location⟩, [],
      (g :: gs).drop n.length⟩
  | none => unexpected location g.byte gs

def readQuoted (d : Delimiter) (kind : Kind) (location : Location) (gs : List Glyph) : Step :=
  let l := readLiteral d 0 gs
  let outcome : Except Failure Token := match l.ending with
    | .closed => .ok ⟨kind, l.text, Binary64.zero, location⟩
    | .brokenLine => .error (.lexical location ("unterminated " ++ d.noun))
    | .exhausted => .error (.lexical location ("EOF in " ++ d.noun))
  ⟨outcome, l.warnings, l.rest⟩

/-- The longest operator at the front; two stars, with an equals sign or without, are a power. -/
def readOperator (location : Location) (g : Glyph) (gs : List Glyph) : Step :=
  let star : Byte := 0x2a
  match bytesOf (gs.take 2) with
  | b :: more =>
    if g.byte = star ∧ b = star then
      if more = [0x3d] then
        .plain (.operator .powerAssign) [star, star, 0x3d] location (gs.drop 2)
      else .plain (.operator .power) [star, star] location (gs.drop 1)
    else match Vocabulary.pair? g.byte b with
      | some o => .plain (.operator o) [g.byte, b] location (gs.drop 1)
      | none =>
        match Vocabulary.single? g.byte with
        | some o => .plain (.operator o) [g.byte] location gs
        | none => unexpected location g.byte gs
  | [] =>
    match Vocabulary.single? g.byte with
    | some o => .plain (.operator o) [g.byte] location gs
    | none => unexpected location g.byte gs

/-- The token that starts at the front, when spacing and comments are behind. -/
def readLexeme (divides : Bool) (location : Location) : List Glyph → Step
  | [] => .plain .endOfInput [] location []
  | g :: gs =>
    if g.byte = Byte.newline then .plain .newline [Byte.newline] location gs
    else if Byte.isNameStart g.byte then readWord location (g :: gs)
    else if g.byte = Delimiter.quote.byte then readQuoted .quote .string location gs
    else if Byte.isDigit g.byte || g.byte == 0x2e then readNumber location g gs
    else if g.byte = Delimiter.slash.byte ∧ !divides then readQuoted .slash .regex location gs
    else if g.byte = 0 then .refuse location "null char" gs
    else readOperator location g gs

/-- The place of the next glyph, or the place where the program ends. -/
def placeOf (finish : Location) : List Glyph → Location
  | g :: _ => g.location
  | [] => finish

/-- The next token. A comment gives its place to the line feed that ends it. -/
def readToken (finish : Location) (divides : Bool) (gs : List Glyph) : Step :=
  match skipSpacing gs with
  | .strayBackslash location rest => .refuse location "backslash not last char in line" rest
  | .token rest => readLexeme divides (placeOf finish rest) (skipComment rest)

end AwkCore.Scanner
