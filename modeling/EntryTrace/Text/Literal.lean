/-!
# String literals in source text

A literal stands between double quotes. Quotes, backslashes, line feeds, carriage returns and tabs
have escapes of two characters, every other control character is `\u` and four digits, and all
else is written as it is.
-/

namespace EntryTrace.Text

set_option autoImplicit false

/-- The control characters: those before the blank, delete, and the block after ASCII. -/
def isControl (c : Char) : Bool := c.toNat < 0x20 || (0x7F ≤ c.toNat && c.toNat ≤ 0x9F)

/-- A digit below sixteen, with capital letters from ten on. -/
def hexDigit (d : Nat) : Char := if d < 10 then Char.ofNat (48 + d) else Char.ofNat (55 + d)

/-- The last four hexadecimal digits of a number. -/
def fourHexDigits (n : Nat) : List Char :=
  [hexDigit (n / 4096 % 16), hexDigit (n / 256 % 16), hexDigit (n / 16 % 16), hexDigit (n % 16)]

def escapeChar (c : Char) : List Char :=
  if c = '"' then ['\\', '"']
  else if c = '\\' then ['\\', '\\']
  else if c = '\n' then ['\\', 'n']
  else if c = '\r' then ['\\', 'r']
  else if c = '\t' then ['\\', 't']
  else if isControl c then '\\' :: 'u' :: fourHexDigits c.toNat
  else [c]

def literal (cs : List Char) : List Char := '"' :: (cs.flatMap escapeChar ++ ['"'])

end EntryTrace.Text
