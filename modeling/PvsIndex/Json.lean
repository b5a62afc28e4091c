/-!
# JSON values and their text

Reports are written as JSON in one fixed form: on one line, a comma or a colon
followed by one space, and in printable ASCII characters only.  Within strings,
quotes, backslashes and the usual control characters have short escapes;
everything else outside the range from space to tilde is written by its UTF-16
units, four lower-case hexadecimal digits each.  An object is a list of
members, and their order is kept.
-/

namespace PvsIndex

/-- A JSON value, as far as reports need it. -/
inductive Json where
  | number (n : Int)
  | string (s : String)
  | array (items : List Json)
  | object (members : List (String × Json))

namespace Json

/-- The hexadecimal digit of a number below sixteen. -/
def hexDigit (n : Nat) : Char :=
  Nat.digitChar (n % 16)

/-- The escape of one UTF-16 unit. -/
def escapeUnit (n : Nat) : List Char :=
  ['\\', 'u', hexDigit (n / 4096), hexDigit (n / 256), hexDigit (n / 16), hexDigit n]

/-- The UTF-16 units of a character: itself, or two surrogates. -/
def units (c : Char) : List Nat :=
  if c.toNat < 0x10000 then [c.toNat]
  else [0xD800 + (c.toNat - 0x10000) / 0x400, 0xDC00 + (c.toNat - 0x10000) % 0x400]

/-- A character as it is written inside a string. -/
def escape (c : Char) : List Char :=
  if c = '"' then ['\\', '"']
  else if c = '\\' then ['\\', '\\']
  else if c = '\n' then ['\\', 'n']
  else if c = '\r' then ['\\', 'r']
  else if c = '\t' then ['\\', 't']
  else if c = '\x08' then ['\\', 'b']
  else if c = '\x0c' then ['\\', 'f']
  else if ' ' ≤ c ∧ c ≤ '~' then [c]
  else (units c).flatMap escapeUnit

/-- A string in quotes. -/
def quote (s : String) : List Char :=
  '"' :: s.toList.flatMap escape ++ ['"']

/-- A whole number in decimal digits. -/
def decimal : Int → List Char
  | .ofNat n => Nat.toDigits 10 n
  | .negSucc n => '-' :: Nat.toDigits 10 (n + 1)

mutual

/-- The text of a value. -/
def render : Json → List Char
  | number n => decimal n
  | string s => quote s
  | array items => '[' :: renderItems items ++ [']']
  | object members => '\x7b' :: renderMembers members ++ ['\x7d']

/-- The items of an array, with commas between. -/
def renderItems : List Json → List Char
  | [] => []
  | [item] => render item
  | item :: items => render item ++ ',' :: ' ' :: renderItems items

/-- The members of an object, with commas between. -/
def renderMembers : List (String × Json) → List Char
  | [] => []
  | [(key, value)] => quote key ++ ':' :: ' ' :: render value
  | (key, value) :: members =>
    quote key ++ ':' :: ' ' :: (render value ++ ',' :: ' ' :: renderMembers members)

end

/-- The keys of an object, in order. -/
def keys : Json → List String
  | object members => members.map Prod.fst
  | _ => []

end Json

end PvsIndex
