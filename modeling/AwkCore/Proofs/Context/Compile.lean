import AwkCore.Context.Compile
import AwkCore.Proofs.Context.Tables

/-!
# The tables of a program

When a program has been entered, its tables hold what its tokens have: the distinct names of its
variables behind the special ones, the distinct names of its functions, and its literals one by one.
-/
namespace AwkCore

/-- The distinct texts of the tokens of a kind, in the order in which they first appear. -/
def Token.distinctTexts (kind : Kind) (ts : List Token) : List Bytes :=
  ((ts.filter (·.kind = kind)).map text).eraseDups

/-- The literal of a token: a number, a string, or a pattern that is not refused. -/
def Token.literal? (engine : Engine) (t : Token) : Option Content :=
  match t.kind with
  | .number => some (.number t.value)
  | .string => some (.string t.text)
  | .regex => (engine.compile? t.text).map Value.regex
  | _ => none

/-- A token has a name, or a literal, or a pattern that is refused, or nothing to be entered. -/
theorem Token.cases (engine : Engine) (t : Token) : t.kind = .name ∨ t.kind = .function ∨
    (∃ v, t.literal? engine = some v) ∨ (t.kind = .regex ∧ engine.compile? t.text = none) ∨
      t.kind ∉ [.name, .function, .number, .string, .regex] := by
  by_cases listed : t.kind ∈ [.name, .function, .number, .string, .regex]
  case neg => exact .inr (.inr (.inr (.inr listed)))
  simp only [List.mem_cons, List.not_mem_nil, or_false] at listed
  rcases listed with kind | kind | kind | kind | kind
  · exact .inl kind
  · exact .inr (.inl kind)
  · exact .inr (.inr (.inl ⟨_, by simp only [literal?, kind]; rfl⟩))
  · exact .inr (.inr (.inl ⟨_, by simp only [literal?, kind]; rfl⟩))
  · cases pattern : engine.compile? t.text with
    | none => exact .inr (.inr (.inr (.inl ⟨kind, rfl⟩)))
    | some p => exact .inr (.inr (.inl ⟨_, by simp only [literal?, kind, pattern]; rfl⟩))

theorem Token.literal?_eq_none {engine : Engine} {t : Token}
    (kind : t.kind ∉ [.number, .string, .regex]) : t.literal? engine = none := by
  simp only [List.mem_cons, List.not_mem_nil, or_false, not_or] at kind
  unfold literal?
  split <;> simp_all

namespace Context

/-- The variables among some tokens, apart from the special ones. -/
def ownVariables (ts : List Token) : List Bytes :=
  (Token.distinctTexts .name ts).filter (· ∉ specialTexts)

/-- The tables hold what some tokens have. -/
def Holds (c : Context) (engine : Engine) (ts : List Token) : Prop :=
  c.Tables (ownVariables ts) (Token.distinctTexts .function ts)
    (ts.filterMap (Token.literal? engine))

/-- What a token was entered as: a place that has its name or its literal, and never the first of
the globals, or nothing for a token that has neither. -/
inductive Denotes (c : Context) (engine : Engine) (t : Token) : Entry → Prop
  | global {i : ℕ} (kind : t.kind = .name) (inside : 0 < i)
      (name : (c.globals.toList[i]?).map Symbol.name = some (Utf8.lossy t.text)) :
      c.Denotes engine t (.place i)
  | function {i : ℕ} (kind : t.kind = .function)
      (name : (c.functions.toList[i]?).map Function.name = some (Utf8.lossy t.text)) :
      c.Denotes engine t (.place i)
  | literal {i : ℕ} {v : Content} (literal : t.literal? engine = some v)
      (content : (c.literals.toList[i]?).map c.heap.content = some v) : c.Denotes engine t (.place i)
  | refused (kind : t.kind = .regex) (pattern : engine.compile? t.text = none) :
      c.Denotes engine t .refused
  | nothing (kind : t.kind ∉ [.name, .function, .number, .string, .regex]) :
      c.Denotes engine t .nothing

variable {engine : Engine} {c d : Context} {ts us : List Token} {t : Token} {entry : Entry}

theorem Denotes.grows (denotes : c.Denotes engine t entry) (grows : c.Grows d) :
    d.Denotes engine t entry := by
  cases denotes with
  | global kind inside name =>
    exact .global kind inside (map_getElem?_mono grows.globals (fun _ _ => rfl) name)
  | function kind name =>
    exact .function kind (map_getElem?_mono grows.functions (fun _ _ => rfl) name)
  | literal literal content =>
    exact .literal literal (map_getElem?_mono grows.literals grows.contents content)
  | refused kind pattern => exact .refused kind pattern
  | nothing kind => exact .nothing kind

theorem distinctTexts_of_ne {kind : Kind} (other : t.kind ≠ kind) (ts : List Token) :
    Token.distinctTexts kind (ts ++ [t]) = Token.distinctTexts kind ts := by
  simp [Token.distinctTexts, List.filter_append, other]

/-- A text is listed when it first appears. -/
theorem distinctTexts_of_eq {kind : Kind} (same : t.kind = kind) (ts : List Token) :
    Token.distinctTexts kind (ts ++ [t]) =
      if t.text ∈ Token.distinctTexts kind ts then Token.distinctTexts kind ts
      else Token.distinctTexts kind ts ++ [t.text] := by
  have split : Token.distinctTexts kind (ts ++ [t]) = Token.distinctTexts kind ts ++
      ([t.text].removeAll ((ts.filter (·.kind = kind)).map Token.text)).eraseDups := by
    rw [Token.distinctTexts, Token.distinctTexts, ← List.eraseDups_append]
    simp [List.filter_append, same]
  rw [split, List.removeAll]
  by_cases listed : t.text ∈ Token.distinctTexts kind ts
  · have old := List.mem_eraseDups.mp listed
    simp [listed, old]
  · have new := mt List.mem_eraseDups.mpr listed
    simp [listed, new, List.eraseDups_cons]

theorem ownVariables_of_eq (kind : t.kind = .name) (ts : List Token) :
    ownVariables (ts ++ [t]) = if t.text ∈ specialTexts ++ ownVariables ts then ownVariables ts
      else ownVariables ts ++ [t.text] := by
  rw [ownVariables, distinctTexts_of_eq kind, ownVariables]
  by_cases special : t.text ∈ specialTexts
  · by_cases listed : t.text ∈ Token.distinctTexts .name ts <;>
      simp [special, listed, List.filter_append]
  · by_cases listed : t.text ∈ Token.distinctTexts .name ts <;>
      simp [special, listed, List.filter_append]

theorem ownVariables_of_ne (other : t.kind ≠ .name) (ts : List Token) :
    ownVariables (ts ++ [t]) = ownVariables ts := by
  rw [ownVariables, distinctTexts_of_ne other, ownVariables]

theorem filterMap_of_none (none : t.literal? engine = none) (ts : List Token) :
    (ts ++ [t]).filterMap (Token.literal? engine) = ts.filterMap (Token.literal? engine) := by
  simp [none]

theorem enterToken_name (kind : c.scanner.current.kind = .name) : c.enterToken engine =
    let r := c.findOrAddGlobal (Utf8.lossy c.scanner.current.text)
    (r.1, .place r.2) := by
  simp only [enterToken, kind]

theorem enterToken_function (kind : c.scanner.current.kind = .function) : c.enterToken engine =
    let r := c.findOrAddFunction (Utf8.lossy c.scanner.current.text)
    (r.1, .place r.2) := by
  simp only [enterToken, kind]

theorem enterToken_literal {v : Content} (literal : c.scanner.current.literal? engine = some v) :
    c.enterToken engine = (c.addLiteral v, .place c.literals.size) := by
  unfold Token.literal? at literal
  split at literal
  case h_1 kind =>
    cases literal
    simp only [enterToken, kind, enterLiteral, literalOf]
  case h_2 kind =>
    cases literal
    simp only [enterToken, kind, enterLiteral, literalOf]
  case h_3 kind =>
    obtain ⟨p, compiled, rfl⟩ := Option.map_eq_some_iff.mp literal
    simp only [enterToken, kind, enterLiteral, literalOf, compiled]
  case h_4 => cases literal

theorem enterToken_refused (kind : c.scanner.current.kind = .regex)
    (pattern : engine.compile? c.scanner.current.text = none) :
    c.enterToken engine = (c, .refused) := by
  simp only [enterToken, kind, enterLiteral, literalOf, pattern]

theorem enterToken_other
    (kind : c.scanner.current.kind ∉ [.name, .function, .number, .string, .regex]) :
    c.enterToken engine = (c, .nothing) := by
  simp only [enterToken, enterLiteral, literalOf]
  cases current : c.scanner.current.kind <;> rw [current] at kind <;> simp at kind ⊢

theorem unchanged_of_refused (refused : (c.enterToken engine).2 = .refused) :
    (c.enterToken engine).1 = c := by
  rcases c.scanner.current.cases engine with kind | kind | ⟨v, literal⟩ | ⟨kind, pattern⟩ | kind
  · rw [enterToken_name kind] at refused
    cases refused
  · rw [enterToken_function kind] at refused
    cases refused
  · rw [enterToken_literal literal] at refused
    cases refused
  · rw [enterToken_refused kind pattern]
  · rw [enterToken_other kind]

/-- Entering a token leaves the scanner alone. -/
theorem enterToken_scanner (engine : Engine) (c : Context) :
    (c.enterToken engine).1.scanner = c.scanner := by
  rcases c.scanner.current.cases engine with kind | kind | ⟨v, literal⟩ | ⟨kind, pattern⟩ | kind
  · rw [enterToken_name kind, findOrAddGlobal]
    cases c.findGlobal? (Utf8.lossy c.scanner.current.text) <;> rfl
  · rw [enterToken_function kind, findOrAddFunction]
    cases c.findFunction? (Utf8.lossy c.scanner.current.text) <;> rfl
  · rw [enterToken_literal literal]
    rfl
  · rw [enterToken_refused kind pattern]
  · rw [enterToken_other kind]

/-- Entering a program is scanning on and entering the current token, again and again. -/
theorem enterProgram_eq (engine : Engine) (c : Context) : c.enterProgram engine =
    match c.scan with
    | .error failure => ⟨c, [], some failure⟩
    | .ok d =>
      if d.scanner.current.kind = .endOfInput then ⟨d, [], none⟩
      else
        let rest := (d.enterToken engine).1.enterProgram engine
        { rest with entries := (d.enterToken engine).2 :: rest.entries } := by
  rw [enterProgram, scan]
  cases next : c.scanner.next.outcome with
  | error failure =>
    rw [Scanner.advances_error next, enterAll, next]
    rfl
  | ok s =>
    rw [Scanner.advances_ok next]
    by_cases ends : s.current.kind = .endOfInput
    · simp only [ends, if_true, enterAll, next, Except.map]
    · simp only [ends, if_false, enterAll, next, Except.map, enterProgram, enterToken_scanner]

/-- What entering a token after others does. -/
structure Enters (c : Context) (engine : Engine) (ts : List Token) (t : Token)
    (r : Context × Entry) : Prop where
  holds : r.1.Holds engine (ts ++ [t])
  grows : c.Grows r.1
  denotes : r.1.Denotes engine t r.2

/-- A token that has nothing for a table leaves them as they are. -/
theorem Holds.unchanged (holds : c.Holds engine ts) (name : t.kind ≠ .name)
    (function : t.kind ≠ .function) (literal : t.literal? engine = none) :
    c.Holds engine (ts ++ [t]) := by
  rw [Holds, ownVariables_of_ne name, distinctTexts_of_ne function, filterMap_of_none literal]
  exact holds

theorem Holds.enterToken (holds : c.Holds engine ts)
    (wellFormed : c.scanner.current.WellFormed) :
    c.Enters engine ts c.scanner.current (c.enterToken engine) := by
  rcases c.scanner.current.cases engine with kind | kind | ⟨v, literal⟩ | ⟨kind, pattern⟩ | kind
  · have plain := (wellFormed.word (by rw [kind]; decide)).word.plain
    obtain ⟨tables, grows, inside, name⟩ := Tables.findOrAddGlobal holds plain
    rw [enterToken_name kind]
    refine ⟨?_, grows, .global kind inside name⟩
    rw [Holds, ownVariables_of_eq kind, distinctTexts_of_ne (by rw [kind]; decide),
      filterMap_of_none (Token.literal?_eq_none (by rw [kind]; decide))]
    exact tables
  · have plain := (wellFormed.word (by rw [kind]; decide)).word.plain
    obtain ⟨tables, grows, name⟩ := Tables.findOrAddFunction holds plain
    rw [enterToken_function kind]
    refine ⟨?_, grows, .function kind name⟩
    rw [Holds, ownVariables_of_ne (by rw [kind]; decide), distinctTexts_of_eq kind,
      filterMap_of_none (Token.literal?_eq_none (by rw [kind]; decide))]
    exact tables
  · obtain ⟨tables, grows, content⟩ := Tables.addLiteral holds v
    have no_word : c.scanner.current.kind ≠ .name ∧ c.scanner.current.kind ≠ .function := by
      constructor <;> intro kind <;>
        rw [Token.literal?_eq_none (by rw [kind]; decide)] at literal <;> cases literal
    rw [enterToken_literal literal]
    refine ⟨?_, grows, .literal literal content⟩
    rw [Holds, ownVariables_of_ne no_word.1, distinctTexts_of_ne no_word.2, List.filterMap_append,
      List.filterMap_cons_some literal]
    exact tables
  · rw [enterToken_refused kind pattern]
    refine ⟨holds.unchanged (by simp [kind]) (by simp [kind]) ?_, .refl c, .refused kind pattern⟩
    simp only [Token.literal?, kind, pattern, Option.map_none]
  · rw [enterToken_other kind]
    simp only [List.mem_cons, List.not_mem_nil, or_false, not_or] at kind
    refine ⟨holds.unchanged kind.1 kind.2.1 ?_, .refl c, .nothing (by simpa using kind)⟩
    exact Token.literal?_eq_none (by simpa using kind.2.2)

theorem Holds.scanned (holds : c.Holds engine ts) (s : Scanner) :
    { c with scanner := s }.Holds engine ts :=
  ⟨holds.globals, holds.functions, holds.literals, holds.held, holds.own_plain, holds.called_plain⟩

theorem Grows.of_scanned {s : Scanner} (grows : { c with scanner := s }.Grows d) : c.Grows d :=
  ⟨grows.globals, grows.functions, grows.literals, grows.contents⟩

/-- A program that is scanned to its end, after some tokens that have been entered. -/
theorem Holds.enterProgram {s : Scanner} (scanner : c.scanner = s) (holds : c.Holds engine ts)
    (whole : s.reading.failure = none) :
    ∃ us e, s.reading.tokens = us ++ [e] ∧ e.kind = .endOfInput ∧
      (∀ u ∈ us, u.kind ≠ .endOfInput) ∧
      let compiled := c.enterProgram engine
      compiled.failure = none ∧ compiled.context.Holds engine (ts ++ us) ∧
        c.Grows compiled.context ∧
        List.Forall₂ (compiled.context.Denotes engine) us compiled.entries := by
  induction s using Scanner.advances.induct generalizing c ts with
  | case1 s failure error =>
    rw [Scanner.reading_error error] at whole
    cases whole
  | case2 s t ok ends =>
    have compiled : c.enterProgram engine = ⟨{ c with scanner := t }, [], none⟩ := by
      simp only [enterProgram_eq engine c, scan, scanner, ok, Except.map, ends, if_true]
    rw [compiled, Scanner.reading_last ok ends]
    refine ⟨[], t.current, rfl, ends, List.forall_mem_nil _, rfl, ?_, .of_scanned (.refl _), .nil⟩
    rw [List.append_nil]
    exact holds.scanned t
  | case3 s t ok more ih =>
    let d : Context := { c with scanner := t }
    have reading := Scanner.reading_more ok more
    have entered : d.Enters engine ts t.current (d.enterToken engine) :=
      (holds.scanned t).enterToken (Scanner.next_wellFormed ok).1
    rw [reading] at whole
    obtain ⟨us, e, tokens, ends, inner, passed, all, grows, denotes⟩ :=
      ih (enterToken_scanner engine d) entered.holds whole
    let rest := (d.enterToken engine).1.enterProgram engine
    have compiled : c.enterProgram engine =
        { rest with entries := (d.enterToken engine).2 :: rest.entries } := by
      simp only [enterProgram_eq engine c, scan, scanner, ok, Except.map, more, if_false, d, rest]
    rw [compiled, reading]
    refine ⟨t.current :: us, e, ?_, ends, ?_, passed, ?_, ?_, ?_⟩
    · rw [Reading.after, tokens]
      rfl
    · exact List.forall_mem_cons.mpr ⟨more, inner⟩
    · rw [List.append_assoc] at all
      exact all
    · exact .of_scanned (entered.grows.trans grows)
    · exact .cons (entered.denotes.grows grows) denotes

/-- The tables of a program that is scanned to its end: the variables and the functions in the order
in which their names first appear, each once and the special variables at the beginning, and a
literal for each number, string and pattern that the engine does not refuse. A refused pattern changes
nothing. The entries answered on the way stand for the names and literals of their tokens at the end. -/
theorem enterProgram_tables (engine : Engine) (p : Program)
    (whole : (Scanner.ofProgram p).reading.failure = none) :
    let s := Scanner.ofProgram p
    let compiled := (Context.new s).enterProgram engine
    let c := compiled.context
    ∃ ts e, s.reading.tokens = ts ++ [e] ∧ e.kind = .endOfInput ∧
      (∀ t ∈ ts, t.kind ≠ .endOfInput) ∧ compiled.failure = none ∧
      c.globals.toList =
        initialGlobals ++ (ownVariables ts).map (fun w => Symbol.new (Utf8.lossy w)) ∧
      c.functions.toList =
        (Token.distinctTexts .function ts).map (fun w => Function.new (Utf8.lossy w)) ∧
      (∀ w ∈ ownVariables ts ++ Token.distinctTexts .function ts, ascii (Utf8.lossy w) = w) ∧
      c.literals.toList.map c.heap.content = ts.filterMap (Token.literal? engine) ∧
      (∀ d : Context, (d.enterToken engine).2 = .refused → (d.enterToken engine).1 = d) ∧
      List.Forall₂ (c.Denotes engine) ts compiled.entries := by
  intro s compiled c
  have empty : (Context.new s).Holds engine [] := Tables.new s
  obtain ⟨ts, e, tokens, ends, inner, passed, holds, _, denotes⟩ := empty.enterProgram rfl whole
  rw [List.nil_append] at holds
  have plain := List.forall_mem_append.mpr ⟨holds.own_plain, holds.called_plain⟩
  refine ⟨ts, e, tokens, ends, inner, passed, holds.globals, holds.functions,
    fun w mem => Utf8.ascii_lossy (plain w mem), holds.literals, fun d => unchanged_of_refused,
    denotes⟩

/-- The first pattern opens a group and does not close it, so it is refused, and `NR` is special. -/
theorem enterProgram_tables_refused :
    let engine : Engine :=
      ⟨fun source => if source = ascii "(" then some .malformed else none, fun source subject =>
        source <:+: subject⟩
    let p := Program.inline (ascii "f(x) ~ /(/, x \"s\" NR g(y) ~ /a/")
    let s := Scanner.ofProgram p
    let c := ((Context.new s).enterProgram engine).context
    s.reading.failure = none ∧
      c.globals.toList = initialGlobals ++ [Symbol.new "x", Symbol.new "y"] ∧
      c.functions.toList = [Function.new "f", Function.new "g"] ∧
      c.literals.toList.map c.heap.content = [.string (ascii "s"), .regex ⟨ascii "a"⟩] := by
  intro engine p s c
  have within : s.advances = s.advancesWithin (s.stream.glyphs.length + 1) :=
    Scanner.advances_eq_within (Nat.lt_succ_self _)
  have whole : s.reading.failure = none := by
    rw [Scanner.reading, within]
    decide +kernel
  obtain ⟨ts, e, tokens, _, _, _, globals, functions, _, literals, _, _⟩ :=
    enterProgram_tables engine p whole
  have before : ts = s.reading.tokens.dropLast := by rw [tokens, List.dropLast_concat]
  rw [Scanner.reading, within] at before
  have own : ownVariables ts = [ascii "x", ascii "y"] := by
    rw [before]
    decide +kernel
  have called : Token.distinctTexts .function ts = [ascii "f", ascii "g"] := by
    rw [before]
    decide +kernel
  have pooled : ts.filterMap (Token.literal? engine) =
      [.string (ascii "s"), .regex ⟨ascii "a"⟩] := by
    rw [before]
    decide +kernel
  rw [own] at globals
  rw [called] at functions
  rw [pooled] at literals
  exact ⟨whole, globals, functions, literals⟩

end Context

end AwkCore
