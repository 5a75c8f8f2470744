import AwkCore.Binary64.Format
import AwkCore.Numeral
import AwkCore.Regex.Pattern
import AwkCore.Text.Utf8
import AwkCore.Diagnostic

/-!
# Values

A value is a scalar, an array, a regular expression or a reference to a place that can be stored to.
The type leaves open how strings and arrays are held: by content, or by handles on shared memory.
What a value counts as depends on the content of its string only.
-/
namespace AwkCore

/-- A numeric string is text from outside that reads as a number. The references name a variable, an
element of the array that a variable holds, and a field of the current record. -/
inductive Value (τ α : Type)
  | uninitialized
  | number (n : Binary64)
  | string (s : τ)
  | numericString (s : τ) (n : Binary64)
  | array (a : α)
  | regex (p : Pattern)
  | variableRef (i : Nat)
  | elementRef (i : Nat)
  | fieldRef (i : Nat)
  deriving DecidableEq, Repr

namespace Value

variable {σ τ α β : Type}

instance : Inhabited (Value τ α) := ⟨uninitialized⟩

def map (f : σ → τ) (g : α → β) : Value σ α → Value τ β
  | uninitialized => uninitialized
  | number n => number n
  | string s => string (f s)
  | numericString s n => numericString (f s) n
  | array a => array (g a)
  | regex p => regex p
  | variableRef i => variableRef i
  | elementRef i => elementRef i
  | fieldRef i => fieldRef i

def isNumber : Value τ α → Bool
  | number _ => true
  | _ => false

def isNumericString : Value τ α → Bool
  | numericString _ _ => true
  | _ => false

def isArray : Value τ α → Bool
  | array _ => true
  | _ => false

def isRegex : Value τ α → Bool
  | regex _ => true
  | _ => false

def isReference : Value τ α → Bool
  | variableRef _ | elementRef _ | fieldRef _ => true
  | _ => false

def isScalar : Value τ α → Bool
  | uninitialized | number _ | string _ | numericString _ _ => true
  | _ => false

def comparesAsNumber : Value τ α → Bool
  | uninitialized | number _ | numericString _ _ => true
  | _ => false

/-- A value made of text from outside: a numeric string if it reads as a number. -/
def ofInput (text : Bytes) : Value Bytes α :=
  match Numeral.whole? text with
  | some n => numericString text n
  | none => string text

def truthy : Value Bytes α → Bool
  | uninitialized => false
  | number n => !n.isZero
  | string s => !s.isEmpty
  | numericString _ n => !n.isZero
  | _ => true

def toNumber : Value Bytes α → Binary64
  | number n => n
  | numericString _ n => n
  | string s => Numeral.leading s
  | _ => Binary64.zero

def toText : Value Bytes α → Bytes
  | string s => s
  | numericString s _ => s
  | number n => Utf8.encode n.text
  | _ => []

/-- Order of two values: by number if both compare as numbers, else by the bytes of their texts. -/
def order (l r : Value Bytes α) : Ordering :=
  if l.comparesAsNumber && r.comparesAsNumber then l.toNumber.order r.toNumber
  else l.toText.order r.toText

def display : Value Bytes α → String
  | uninitialized => ""
  | number n => n.text
  | string s => Utf8.lossy s
  | numericString s _ => Utf8.lossy s
  | array _ => "(array)"
  | regex p => "/" ++ Utf8.lossy p.source ++ "/"
  | variableRef i => "(var ref " ++ toString i ++ ")"
  | elementRef i => "(array ref " ++ toString i ++ ")"
  | fieldRef i => "$" ++ toString i

end Value

inductive StoreError
  | scalarIntoArray
  | arrayIntoScalar
  | scalarAsArray
  deriving DecidableEq, Repr

def StoreError.failure : StoreError → Failure
  | scalarIntoArray => .runtime "can't assign to array"
  | arrayIntoScalar => .runtime "can't assign array to scalar"
  | scalarAsArray => .runtime "can't use scalar as array"

/-- An array is stored over an array or an uninitialized value only, and nothing else is stored over
an array. -/
def Value.checkAssign {τ α : Type} (target source : Value τ α) : Except StoreError Unit :=
  match target, source with
  | .array _, .array _ => .ok ()
  | .array _, _ => .error .scalarIntoArray
  | .uninitialized, .array _ => .ok ()
  | _, .array _ => .error .arrayIntoScalar
  | _, _ => .ok ()

end AwkCore
