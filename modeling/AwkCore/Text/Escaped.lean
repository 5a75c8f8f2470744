import AwkCore.Text.Utf8

/-!
# Making control bytes visible

`escape` writes a byte string on one line of printable ASCII, for the columns of the token listing.
`quoted` is the form in which a string is shown to a person who inspects it.
-/
namespace AwkCore.Escaped

/-- Named escapes for tab, carriage return, line feed, both quotes and backslash; hexadecimal for
every other byte that is not printable. -/
def escapeByte (b : Byte) : Bytes :=
  if b == 0x09 then ascii "\\t"
  else if b == 0x0d then ascii "\\r"
  else if b == 0x0a then ascii "\\n"
  else if b == 0x27 || b == 0x22 || b == 0x5c then [Byte.backslash, b]
  else if Byte.isPrintable b then [b]
  else ascii "\\x" ++ Byte.hexPair b

def escape (text : Bytes) : Bytes := text.flatMap escapeByte

def hexText (n : Nat) : String := String.ofList (Nat.toDigits 16 n)

/-- Inside double quotes the double quote, the backslash and control characters are escaped. -/
def quotedChar (c : Char) : String :=
  if c == '\t' then "\\t"
  else if c == '\n' then "\\n"
  else if c.toNat == 0x0d then "\\r"
  else if c.toNat == 0 then "\\0"
  else if c.toNat == 0x22 then "\\\""
  else if c == '\\' then "\\\\"
  else if c.toNat < 0x20 || c.toNat == 0x7f then "\\u\x7b" ++ hexText c.toNat ++ "\x7d"
  else c.toString

def quoted (text : Bytes) : String :=
  "\"" ++ String.join ((Utf8.decode text).map quotedChar) ++ "\""

end AwkCore.Escaped
