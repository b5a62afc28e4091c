import PvsIndex.Json

/-!
# The grammar of JSON

All of JSON, of which reports need only a part: blanks between the parts, fractions
and exponents, capital and small hexadecimal digits, characters that are escaped
without need.  Each judgement says what stands at the front of an input, and what is
behind it; what it leaves open is where a run of blanks or digits ends.
-/

namespace PvsIndex

/-- A JSON value.  A number is a significand and an exponent of ten. -/
inductive JsonValue where
  | null
  | boolean (b : Bool)
  | number (significand exponent : Int)
  | string (s : String)
  | array (items : List JsonValue)
  | object (members : List (String × JsonValue))

namespace Json

/-- The blanks. -/
def isBlank (c : Char) : Bool :=
  c = ' ' || c = '\t' || c = '\n' || c = '\r'

/-- Some blanks, or none. -/
inductive BlanksAt : List Char → List Char → Prop where
  | none {rest : List Char} : BlanksAt rest rest
  | more {c : Char} {input rest : List Char} :
      isBlank c = true → BlanksAt input rest → BlanksAt (c :: input) rest

/-- One digit or several. -/
inductive DigitsAt : List Char → List Char → List Char → Prop where
  | last {c : Char} {rest : List Char} : c.isDigit = true → DigitsAt [c] (c :: rest) rest
  | more {c : Char} {ds input rest : List Char} :
      c.isDigit = true → DigitsAt ds input rest → DigitsAt (c :: ds) (c :: input) rest

/-- Digits behind a sign.  A minus may be written, and a plus if `plus` says so. -/
inductive SignedAt (plus : Bool) : Bool → List Char → List Char → List Char → Prop where
  | bare {ds input rest : List Char} :
      DigitsAt ds input rest → SignedAt plus false ds input rest
  | plus {ds input rest : List Char} :
      plus = true → DigitsAt ds input rest → SignedAt plus false ds ('+' :: input) rest
  | minus {ds input rest : List Char} :
      DigitsAt ds input rest → SignedAt plus true ds ('-' :: input) rest

/-- The digits behind a point, if there is a point. -/
inductive FractionAt : List Char → List Char → List Char → Prop where
  | none {rest : List Char} : FractionAt [] rest rest
  | point {ds input rest : List Char} :
      DigitsAt ds input rest → FractionAt ds ('.' :: input) rest

/-- The number that digits stand for. -/
def natOf (ds : List Char) : Nat :=
  Nat.ofDigitChars 10 ds 0

/-- A number with its sign. -/
def signed (negative : Bool) (n : Nat) : Int :=
  if negative then -n else n

/-- The power of ten, if one is written. -/
inductive ExponentAt : Int → List Char → List Char → Prop where
  | none {rest : List Char} : ExponentAt 0 rest rest
  | power {e : Char} {negative : Bool} {ds input rest : List Char} :
      e = 'e' ∨ e = 'E' → SignedAt true negative ds input rest →
        ExponentAt (signed negative (natOf ds)) (e :: input) rest

/-- A number, without zeros in front. -/
inductive NumberAt : Int → Int → List Char → List Char → Prop where
  | mk {negative : Bool} {whole behind : List Char} {e : Int} {input afterWhole afterPoint rest :
        List Char} :
      SignedAt false negative whole input afterWhole → (whole.head? = some '0' → whole = ['0']) →
      FractionAt behind afterWhole afterPoint → ExponentAt e afterPoint rest →
        NumberAt (signed negative (natOf (whole ++ behind))) (e - behind.length) input rest

/-- The value of a hexadecimal digit. -/
def hexValue? (c : Char) : Option Nat :=
  if c.isDigit then some (c.toNat - 48)
  else if 'a' ≤ c ∧ c ≤ 'f' then some (c.toNat - 87)
  else if 'A' ≤ c ∧ c ≤ 'F' then some (c.toNat - 55)
  else none

/-- A UTF-16 unit by its number. -/
inductive UnitAt : Nat → List Char → List Char → Prop where
  | mk {a b c d : Char} {i j k l : Nat} {rest : List Char} :
      hexValue? a = some i → hexValue? b = some j → hexValue? c = some k → hexValue? d = some l →
        UnitAt (i * 4096 + j * 256 + k * 16 + l) ('\\' :: 'u' :: a :: b :: c :: d :: rest) rest

/-- The short escapes, with what they stand for. -/
def shortEscapes : List (Char × Char) :=
  [('"', '"'), ('\\', '\\'), ('/', '/'), ('b', '\x08'), ('f', '\x0c'), ('n', '\n'), ('r', '\r'),
   ('t', '\t')]

/-- The character of two surrogates. -/
def joined (high low : Nat) : Nat :=
  0x10000 + (high - 0xD800) * 0x400 + (low - 0xDC00)

/-- A character of a string: itself, or escaped.  Half of a surrogate pair stands for
no character. -/
inductive CharacterAt : Char → List Char → List Char → Prop where
  | plain {c : Char} {rest : List Char} :
      ' ' ≤ c → c ≠ '"' → c ≠ '\\' → CharacterAt c (c :: rest) rest
  | short {e c : Char} {rest : List Char} :
      (e, c) ∈ shortEscapes → CharacterAt c ('\\' :: e :: rest) rest
  | unit {c : Char} {input rest : List Char} : UnitAt c.toNat input rest → CharacterAt c input rest
  | pair {high low : Nat} {c : Char} {input middle rest : List Char} :
      UnitAt high input middle → UnitAt low middle rest → 0xD800 ≤ high → high < 0xDC00 →
        0xDC00 ≤ low → low < 0xE000 → c.toNat = joined high low → CharacterAt c input rest

/-- The characters of a string, through the quote behind them. -/
inductive CharactersAt : List Char → List Char → List Char → Prop where
  | close {rest : List Char} : CharactersAt [] ('"' :: rest) rest
  | more {c : Char} {cs input middle rest : List Char} :
      CharacterAt c input middle → CharactersAt cs middle rest → CharactersAt (c :: cs) input rest

mutual

/-- A value. -/
inductive ValueAt : JsonValue → List Char → List Char → Prop where
  | null {rest : List Char} : ValueAt .null ('n' :: 'u' :: 'l' :: 'l' :: rest) rest
  | verum {rest : List Char} : ValueAt (.boolean true) ('t' :: 'r' :: 'u' :: 'e' :: rest) rest
  | falsum {rest : List Char} :
      ValueAt (.boolean false) ('f' :: 'a' :: 'l' :: 's' :: 'e' :: rest) rest
  | number {s e : Int} {input rest : List Char} :
      NumberAt s e input rest → ValueAt (.number s e) input rest
  | string {cs input rest : List Char} :
      CharactersAt cs input rest → ValueAt (.string (String.ofList cs)) ('"' :: input) rest
  | noItems {input rest : List Char} :
      BlanksAt input (']' :: rest) → ValueAt (.array []) ('[' :: input) rest
  | items {items : List JsonValue} {input rest : List Char} :
      ItemsAt items input rest → ValueAt (.array items) ('[' :: input) rest
  | noMembers {input rest : List Char} :
      BlanksAt input ('\x7d' :: rest) → ValueAt (.object []) ('\x7b' :: input) rest
  | members {members : List (String × JsonValue)} {input rest : List Char} :
      MembersAt members input rest → ValueAt (.object members) ('\x7b' :: input) rest

/-- A value between blanks. -/
inductive ElementAt : JsonValue → List Char → List Char → Prop where
  | mk {v : JsonValue} {input start stop rest : List Char} :
      BlanksAt input start → ValueAt v start stop → BlanksAt stop rest → ElementAt v input rest

/-- The items of an array, through the bracket behind them. -/
inductive ItemsAt : List JsonValue → List Char → List Char → Prop where
  | last {v : JsonValue} {input rest : List Char} :
      ElementAt v input (']' :: rest) → ItemsAt [v] input rest
  | more {v : JsonValue} {vs : List JsonValue} {input next rest : List Char} :
      ElementAt v input (',' :: next) → ItemsAt vs next rest → ItemsAt (v :: vs) input rest

/-- A member of an object. -/
inductive MemberAt : String × JsonValue → List Char → List Char → Prop where
  | mk {key : List Char} {v : JsonValue} {input start stop next rest : List Char} :
      BlanksAt input ('"' :: start) → CharactersAt key start stop →
        BlanksAt stop (':' :: next) → ElementAt v next rest →
          MemberAt (String.ofList key, v) input rest

/-- The members of an object, through the brace behind them. -/
inductive MembersAt : List (String × JsonValue) → List Char → List Char → Prop where
  | last {m : String × JsonValue} {input rest : List Char} :
      MemberAt m input ('\x7d' :: rest) → MembersAt [m] input rest
  | more {m : String × JsonValue} {ms : List (String × JsonValue)} {input next rest : List Char} :
      MemberAt m input (',' :: next) → MembersAt ms next rest → MembersAt (m :: ms) input rest

end

/-- The text is the value in JSON. -/
def IsText (v : JsonValue) (text : List Char) : Prop :=
  ElementAt v text []

end Json

end PvsIndex
