import EntryTrace.Json.Number
import EntryTrace.Text.Bytes
import EntryTrace.Text.Quoted

/-!
# What goes wrong while decoding

A fault is the cause of a failed decoding: text that is no JSON, or a value that is not what was
asked for. Text is read from the front, and a reader that stops says how many bytes were left.
-/

namespace EntryTrace.Json

set_option autoImplicit false

/-- A value met where another one was expected. -/
inductive Found where
  | null
  | bool (value : Bool)
  | number (value : Number)
  | text (value : List Char)
  | sequence
  | mapping

namespace Found

def describe : Found → String
  | null => "null"
  | bool value => "boolean `" ++ (if value then "true" else "false") ++ "`"
  | number value => value.describe
  | text value => "string " ++ String.ofList (Text.quoted value)
  | sequence => "sequence"
  | mapping => "map"

end Found

inductive Fault where
  | endInValue
  | endInList
  | endInObject
  | endInString
  | expectedValue
  | expectedWord
  | expectedColon
  | expectedListEnd
  | expectedObjectEnd
  | keyNotText
  | trailingComma
  | trailingCharacters
  | invalidNumber
  | numberOutOfRange
  | invalidEscape
  | controlCharacter
  | loneSurrogate
  | unfinishedPair
  | wrongType (found : Found) (expected : String)
  | duplicateField (name : String)
  | tooManyElements (count : Nat)

namespace Fault

def message : Fault → String
  | endInValue => "EOF while parsing a value"
  | endInList => "EOF while parsing a list"
  | endInObject => "EOF while parsing an object"
  | endInString => "EOF while parsing a string"
  | expectedValue => "expected value"
  | expectedWord => "expected ident"
  | expectedColon => "expected `:`"
  | expectedListEnd => "expected `,` or `]`"
  | expectedObjectEnd => "expected `,` or `\x7d`"
  | keyNotText => "key must be a string"
  | trailingComma => "trailing comma"
  | trailingCharacters => "trailing characters"
  | invalidNumber => "invalid number"
  | numberOutOfRange => "number out of range"
  | invalidEscape => "invalid escape"
  | controlCharacter => "control character (\\u0000-\\u001F) found while parsing a string"
  | loneSurrogate => "lone leading surrogate in hex escape"
  | unfinishedPair => "unexpected end of hex escape"
  | wrongType found expected => "invalid type: " ++ found.describe ++ ", expected " ++ expected
  | duplicateField name => "duplicate field `" ++ name ++ "`"
  | tooManyElements count =>
    "invalid length " ++ String.ofList (Nat.toDigits 10 count) ++
      ", expected fewer elements in array"

end Fault

/-- A reader stopped with `left` bytes of the text still ahead. -/
structure Stop where
  fault : Fault
  left : Nat

namespace Stop

/-- Stopped in front of the rest. -/
def before (fault : Fault) (rest : List Char) : Stop := ⟨fault, Text.byteLength rest⟩

/-- Stopped behind the first byte of the rest, or at the end if there is none. -/
def behind (fault : Fault) (rest : List Char) : Stop := ⟨fault, Text.byteLength rest - 1⟩

end Stop

/-- A reader takes the text that is left and returns a value with the text that is left then. -/
abbrev Reading (α : Type) := Except Stop (α × List Char)

end EntryTrace.Json
