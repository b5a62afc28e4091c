import PvsIndex.Text.Printable

/-!
# Quoted text

How a file name or an argument is shown in a message.  It stands in single
quotes, or in double quotes if it has a single quote and no double quote.  The
quote itself, the backslash and the line controls are escaped, and so is every
character that is not printable, by the shortest of three hexadecimal forms.
-/

namespace PvsIndex

namespace Quoted

/-- The quote that a text is put in. -/
def mark (text : List Char) : Char :=
  if text.contains '\'' && !text.contains '"' then '"' else '\''

/-- The last `width` hexadecimal digits of a number, in lower case. -/
def hex (n : Nat) : Nat → List Char
  | 0 => []
  | width + 1 => hex (n / 16) width ++ [Nat.digitChar (n % 16)]

/-- A character that is not printable, by its code point. -/
def numeric (c : Char) : List Char :=
  if c.toNat < 0x100 then '\\' :: 'x' :: hex c.toNat 2
  else if c.toNat < 0x10000 then '\\' :: 'u' :: hex c.toNat 4
  else '\\' :: 'U' :: hex c.toNat 8

/-- A character as it stands between quotes. -/
def escape (quote c : Char) : List Char :=
  if c = quote || c = '\\' then ['\\', c]
  else if c = '\n' then ['\\', 'n']
  else if c = '\t' then ['\\', 't']
  else if c = '\r' then ['\\', 'r']
  else if isPrintable c then [c]
  else numeric c

end Quoted

/-- A text as it is shown in a message. -/
def quoted (text : List Char) : String :=
  let quote := Quoted.mark text
  String.ofList (quote :: text.flatMap (Quoted.escape quote) ++ [quote])

end PvsIndex
