import AwkCore.Token

/-!
# Words and operators

Look-up of the fixed spellings: keywords, built-in functions, and operators of one and two bytes.
The power operator has a second spelling with two stars, which is not in these tables.
-/
namespace AwkCore.Vocabulary

def keywords : List (String × Keyword) :=
  [("in", .«in»), ("BEGIN", .begin), ("END", .«end»), ("if", .«if»), ("else", .«else»),
    ("while", .«while»), ("for", .«for»), ("do", .«do»), ("break", .«break»),
    ("continue", .«continue»), ("exit", .exit), ("function", .function), ("return", .«return»),
    ("next", .next), ("nextfile", .nextfile), ("delete", .delete), ("print", .print),
    ("printf", .printf), ("getline", .getline)]

def builtins : List (String × Builtin) :=
  [("atan2", .atan2), ("cos", .cos), ("sin", .sin), ("exp", .exp), ("log", .log), ("sqrt", .sqrt),
    ("int", .int), ("rand", .rand), ("srand", .srand), ("length", .length), ("tolower", .tolower),
    ("toupper", .toupper), ("system", .system), ("fflush", .fflush), ("and", .and), ("or", .or),
    ("xor", .xor), ("lshift", .lshift), ("rshift", .rshift), ("close", .close), ("index", .index),
    ("match", .«match»), ("split", .split), ("sub", .sub), ("gsub", .gsub), ("sprintf", .sprintf),
    ("substr", .substr)]

def pairs : List ((Char × Char) × Operator) :=
  [(('+', '+'), .increment), (('-', '-'), .decrement), (('<', '='), .lessEqual),
    (('!', '='), .notEqual), (('=', '='), .equal), (('>', '='), .greaterEqual),
    (('!', '~'), .notMatching), (('&', '&'), .and), (('|', '|'), .or), (('^', '='), .powerAssign),
    (('%', '='), .remainderAssign), (('*', '='), .timesAssign), (('/', '='), .divideAssign),
    (('+', '='), .plusAssign), (('-', '='), .minusAssign), (('>', '>'), .append)]

def singles : List (Char × Operator) :=
  [(';', .semicolon), (',', .comma), ('[', .leftBracket), (']', .rightBracket), ('(', .leftParen),
    (')', .rightParen), ('\x7b', .leftBrace), ('\x7d', .rightBrace), ('$', .dollar), ('^', .power),
    ('!', .not), ('*', .times), ('/', .divide), ('%', .remainder), ('+', .plus), ('-', .minus),
    ('<', .less), ('>', .greater), ('~', .matching), ('?', .question), (':', .colon),
    ('=', .assign), ('|', .pipe)]

def keyword? (word : Bytes) : Option Keyword :=
  (keywords.find? fun entry => ascii entry.1 = word).map Prod.snd

def builtin? (word : Bytes) : Option Builtin :=
  (builtins.find? fun entry => ascii entry.1 = word).map Prod.snd

def pair? (first second : Byte) : Option Operator :=
  (pairs.find? fun entry => entry.1.1.toUInt8 = first ∧ entry.1.2.toUInt8 = second).map Prod.snd

def single? (b : Byte) : Option Operator :=
  (singles.find? fun entry => entry.1.toUInt8 = b).map Prod.snd

end AwkCore.Vocabulary
