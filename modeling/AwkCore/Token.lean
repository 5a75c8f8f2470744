import AwkCore.Binary64
import AwkCore.Diagnostic

/-!
# Tokens

The kinds of token in an AWK program, the class each kind belongs to, and how a kind is spelled.
-/
namespace AwkCore

inductive Builtin
  | atan2 | cos | sin | exp | log | sqrt | int | rand | srand | length | tolower | toupper
  | system | fflush | and | or | xor | lshift | rshift
  | close | index | match | split | sub | gsub | sprintf | substr
  deriving DecidableEq, Repr

inductive Keyword
  | in | begin | end | if | else | while | for | do | break | continue | exit | function | return
  | next | nextfile | delete | print | printf | getline
  deriving DecidableEq, Repr

inductive Operator
  | semicolon | comma | leftBracket | rightBracket | leftParen | rightParen | leftBrace | rightBrace
  | dollar | increment | decrement | power | not | times | divide | remainder | plus | minus
  | less | lessEqual | notEqual | equal | greater | greaterEqual | matching | notMatching | and | or
  | question | colon
  | powerAssign | remainderAssign | timesAssign | divideAssign | plusAssign | minusAssign | assign
  | append | pipe
  deriving DecidableEq, Repr

inductive Kind
  | endOfInput
  | newline
  | name
  | number
  | string
  | regex
  | function
  | builtin (b : Builtin)
  | operator (o : Operator)
  | keyword (k : Keyword)
  deriving DecidableEq, Repr

inductive TokenClass
  | endOfInput | newline | name | number | string | regex | function | builtin | operator
  | keyword
  deriving DecidableEq, Repr

def TokenClass.text : TokenClass → String
  | endOfInput => "eof"
  | newline => "newline"
  | name => "var"
  | number => "number"
  | string => "string"
  | regex => "regex"
  | function => "userfunc"
  | builtin => "builtin"
  | operator => "token"
  | keyword => "keyword"

namespace Builtin

def name : Builtin → String
  | atan2 => "atan2"
  | cos => "cos"
  | sin => "sin"
  | exp => "exp"
  | log => "log"
  | sqrt => "sqrt"
  | int => "int"
  | rand => "rand"
  | srand => "srand"
  | length => "length"
  | tolower => "tolower"
  | toupper => "toupper"
  | system => "system"
  | fflush => "fflush"
  | and => "and"
  | or => "or"
  | xor => "xor"
  | lshift => "lshift"
  | rshift => "rshift"
  | close => "close"
  | index => "index"
  | «match» => "match"
  | split => "split"
  | sub => "sub"
  | gsub => "gsub"
  | sprintf => "sprintf"
  | substr => "substr"

/-- Whether an argument may be a regular expression or a place to store to. -/
def isSpecial : Builtin → Bool
  | close | index | «match» | split | sub | gsub | sprintf | substr => true
  | _ => false

end Builtin

namespace Keyword

def name : Keyword → String
  | «in» => "in"
  | begin => "BEGIN"
  | «end» => "END"
  | «if» => "if"
  | «else» => "else"
  | «while» => "while"
  | «for» => "for"
  | «do» => "do"
  | «break» => "break"
  | «continue» => "continue"
  | exit => "exit"
  | function => "function"
  | «return» => "return"
  | next => "next"
  | nextfile => "nextfile"
  | delete => "delete"
  | print => "print"
  | printf => "printf"
  | getline => "getline"

end Keyword

def Operator.spelling : Operator → String
  | semicolon => ";"
  | comma => ","
  | leftBracket => "["
  | rightBracket => "]"
  | leftParen => "("
  | rightParen => ")"
  | leftBrace => "\x7b"
  | rightBrace => "\x7d"
  | dollar => "$"
  | increment => "++"
  | decrement => "--"
  | power => "^"
  | not => "!"
  | times => "*"
  | divide => "/"
  | remainder => "%"
  | plus => "+"
  | minus => "-"
  | less => "<"
  | lessEqual => "<="
  | notEqual => "!="
  | equal => "=="
  | greater => ">"
  | greaterEqual => ">="
  | matching => "~"
  | notMatching => "!~"
  | and => "&&"
  | or => "||"
  | question => "?"
  | colon => ":"
  | powerAssign => "^="
  | remainderAssign => "%="
  | timesAssign => "*="
  | divideAssign => "/="
  | plusAssign => "+="
  | minusAssign => "-="
  | assign => "="
  | append => ">>"
  | pipe => "|"

namespace Kind

def tokenClass : Kind → TokenClass
  | endOfInput => .endOfInput
  | newline => .newline
  | name => .name
  | number => .number
  | string => .string
  | regex => .regex
  | function => .function
  | builtin _ => .builtin
  | operator _ => .operator
  | keyword _ => .keyword

def isKeyword : Kind → Bool
  | keyword _ => true
  | _ => false

/-- Whether a slash after such a token divides; after any other it opens a regular expression. -/
def producesValue : Kind → Bool
  | number | string | name => true
  | keyword k => k = .getline
  | operator o => o ∈ [.rightParen, .rightBracket, .increment, .decrement]
  | _ => false

/-- The spelling of a fixed token, and a description of any other. -/
def text : Kind → String
  | endOfInput => "end of input"
  | newline => "newline"
  | name => "variable"
  | number => "number"
  | string => "string"
  | regex => "regex"
  | function => "function name"
  | builtin b => b.name
  | operator o => o.spelling
  | keyword k => k.name

end Kind

/-- A token: its text is the spelling, or the content of a literal with escapes resolved. -/
structure Token where
  kind : Kind
  text : Bytes
  value : Binary64
  location : Location
  deriving DecidableEq, Repr

end AwkCore
