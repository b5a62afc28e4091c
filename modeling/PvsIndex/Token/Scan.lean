import PvsIndex.Token.Basic

/-!
# Scanning: from a text to its pieces

Every class of word is a `Shape`, and a shape answers one question: how many
characters at the front of a text does it take (`Shape.munch`, zero for
"none")?  The shapes are tried in the fixed order `Shape.order`, and the first
that takes anything wins.  Where none does, one character is cut off as
unreadable.

Keywords enter twice.  A name that spells a keyword, in any mixture of upper
and lower case, is that keyword.  Besides, keywords are shapes of their own,
compared by `fold`; this matters only where a name cannot begin, at the three
letters outside the alphabet that fold into it.

`scan` is the one reading of a text.  `tokenize` keeps its tokens and stops at
the first unreadable character.
-/

namespace PvsIndex

/-- The letters a name begins with: `A` to `Z` in either case. -/
def isLetter (c : Char) : Bool :=
  ('a' ≤ c && c ≤ 'z') || ('A' ≤ c && c ≤ 'Z')

/-- The decimal digits `0` to `9`. -/
def isFigure (c : Char) : Bool :=
  '0' ≤ c && c ≤ '9'

/-- What a name goes on with. -/
def isNameChar (c : Char) : Bool :=
  isLetter c || isFigure c || c = '_' || c = '?'

/-- What separates words: space, tab, form feed, carriage return, line feed. -/
def isBlank (c : Char) : Bool :=
  c = ' ' || c = '\t' || c = '\x0c' || c = '\r' || c = '\n'

/-- Case folding of the letters that keywords are written with.  Dotless and
dotted `ı`, `İ` fold with `I`, and the long `ſ` folds with `S`. -/
def fold (c : Char) : Char :=
  if c = 'ı' || c = 'İ' then 'I'
  else if c = 'ſ' then 'S'
  else if 'a' ≤ c && c ≤ 'z' then Char.ofNat (c.toNat - 32)
  else c

/-- The classes of words, separators included. -/
inductive Shape where
  | name
  | number
  | blank
  | string
  | comment
  | keyword (k : Keyword)
  | mark (m : Mark)
deriving DecidableEq

namespace Shape

/-- The order in which shapes are tried. -/
def order : List Shape :=
  [name, number, blank, string, comment] ++ Keyword.longestFirst.map keyword
    ++ Mark.longestFirst.map mark

/-- A letter, then letters, digits, `_` and `?`. -/
def munchName : List Char → Nat
  | [] => 0
  | c :: cs => if isLetter c then 1 + (cs.takeWhile isNameChar).length else 0

/-- The part of a number after its point, if there is one with digits behind it. -/
def munchFraction : List Char → Nat
  | '.' :: cs =>
    let figures := (cs.takeWhile isFigure).length
    if figures = 0 then 0 else 1 + figures
  | _ => 0

/-- Digits, then perhaps a point and more digits. -/
def munchNumber (cs : List Char) : Nat :=
  let figures := (cs.takeWhile isFigure).length
  if figures = 0 then 0 else figures + munchFraction (cs.dropWhile isFigure)

/-- A quote, anything but quotes and line ends, a quote. -/
def munchString : List Char → Nat
  | '"' :: cs =>
    let inner := cs.takeWhile fun c => c != '"' && c != '\n'
    match cs.drop inner.length with
    | '"' :: _ => inner.length + 2
    | _ => 0
  | _ => 0

/-- A per cent sign and the rest of the line. -/
def munchComment : List Char → Nat
  | '%' :: cs => 1 + (cs.takeWhile (· != '\n')).length
  | _ => 0

/-- Does a text start with `word`, once its characters have been changed by `f`? -/
def startsWith (f : Char → Char) : List Char → List Char → Bool
  | [], _ => true
  | _ :: _, [] => false
  | w :: word, c :: cs => f c = w && startsWith f word cs

/-- The length of `word`, if the text starts with it up to `f`. -/
def munchWord (f : Char → Char) (word cs : List Char) : Nat :=
  if startsWith f word cs then word.length else 0

/-- How many characters at the front of a text a shape takes; zero if none. -/
def munch : Shape → List Char → Nat
  | name, cs => munchName cs
  | number, cs => munchNumber cs
  | blank, cs => (cs.takeWhile isBlank).length
  | string, cs => munchString cs
  | comment, cs => munchComment cs
  | keyword k, cs => munchWord fold k.spelling.toList cs
  | mark m, cs => munchWord id m.spelling.toList cs

/-- The keyword that a name spells, in whatever case. -/
def keyword? (text : List Char) : Option Keyword :=
  Keyword.all.find? fun k => k.spelling.toList = text.map fold

/-- The terminal of a name: the keyword it spells, or a plain identifier. -/
def nameTerminal (text : List Char) : Terminal :=
  match keyword? text with
  | some k => .keyword k
  | none => .ident

/-- The piece that `text`, found to be of this shape, makes at a place. -/
def piece (p : Place) (text : List Char) : Shape → Piece
  | name => .token ⟨p, nameTerminal text, text⟩
  | number => .token ⟨p, .number, text⟩
  | blank => .blank p text
  | string => .token ⟨p, .string, text⟩
  | comment => .comment p text
  | keyword k => .token ⟨p, .keyword k, text⟩
  | mark m => .token ⟨p, .mark m, text⟩

/-- The first shape of the order that takes anything. -/
def first? (cs : List Char) : Option Shape :=
  order.find? fun s => s.munch cs != 0

end Shape

/-- The piece at the front of the text `c :: cs`. -/
def frontPiece (p : Place) (c : Char) (cs : List Char) : Piece :=
  match Shape.first? (c :: cs) with
  | some s => s.piece p ((c :: cs).take (s.munch (c :: cs)))
  | none => .unreadable ⟨p, c⟩

/-- Scanning from a place inside a text, when the next `covered` characters
already belong to the piece before. -/
def scanFrom (p : Place) (covered : Nat) : List Char → List Piece
  | [] => []
  | c :: cs =>
    match covered with
    | n + 1 => scanFrom (p.after c) n cs
    | 0 =>
      let piece := frontPiece p c cs
      piece :: scanFrom (p.after c) (piece.text.length - 1) cs

/-- The pieces of a text, in order and without gaps. -/
def scan (source : List Char) : List Piece :=
  scanFrom .start 0 source

@[simp] theorem Shape.text_piece (p : Place) (text : List Char) (s : Shape) :
    (s.piece p text).text = text := by
  cases s <;> rfl

@[simp] theorem Shape.start_piece (p : Place) (text : List Char) (s : Shape) :
    (s.piece p text).start = p := by
  cases s <;> rfl

/-- The front piece is a front of the text, and takes at least one character. -/
theorem frontPiece_text (p : Place) (c : Char) (cs : List Char) :
    ∃ text rest, (frontPiece p c cs).text = c :: text ∧ cs = text ++ rest := by
  unfold frontPiece
  split
  next s found =>
    have taken : s.munch (c :: cs) ≠ 0 := by
      have := List.find?_some found
      simpa using this
    obtain ⟨n, hn⟩ := Nat.exists_eq_succ_of_ne_zero taken
    refine ⟨cs.take n, cs.drop n, ?_, (List.take_append_drop n cs).symm⟩
    rw [Shape.text_piece, hn, List.take_succ_cons]
  next => exact ⟨[], cs, rfl, rfl⟩

/-- Characters that belong to the piece before are passed over. -/
theorem scanFrom_append (p : Place) (covered rest : List Char) :
    scanFrom p covered.length (covered ++ rest) = scanFrom (p.afterAll covered) 0 rest := by
  induction covered generalizing p with
  | nil => rfl
  | cons c covered ih => exact ih (p.after c)

/-- Scanning goes piece by piece: the front piece, then the rest from where it stops. -/
theorem scanFrom_cons (p : Place) (c : Char) (cs : List Char) :
    ∃ rest, c :: cs = (frontPiece p c cs).text ++ rest ∧
      scanFrom p 0 (c :: cs) =
        frontPiece p c cs :: scanFrom (p.afterAll (frontPiece p c cs).text) 0 rest := by
  obtain ⟨text, rest, front, rfl⟩ := frontPiece_text p c cs
  refine ⟨rest, by rw [front]; rfl, ?_⟩
  have covered : (frontPiece p c (text ++ rest)).text.length - 1 = text.length := by
    rw [front]; rfl
  calc scanFrom p 0 (c :: (text ++ rest))
      = frontPiece p c (text ++ rest) ::
          scanFrom (p.after c) ((frontPiece p c (text ++ rest)).text.length - 1) (text ++ rest) := rfl
    _ = frontPiece p c (text ++ rest) ::
          scanFrom (p.afterAll (frontPiece p c (text ++ rest)).text) 0 rest := by
        rw [covered, scanFrom_append, front, Place.afterAll_cons]

/-- Nothing is lost in scanning: the pieces' texts make up the text. -/
theorem scanFrom_text (p : Place) (source : List Char) :
    (scanFrom p 0 source).flatMap Piece.text = source := by
  induction size : source.length using Nat.strongRecOn generalizing p source with
  | _ n ih =>
    cases source with
    | nil => rfl
    | cons c cs =>
      obtain ⟨rest, split, pieces⟩ := scanFrom_cons p c cs
      obtain ⟨text, _, front, _⟩ := frontPiece_text p c cs
      have shorter : rest.length < n := by
        rw [← size, split, front, List.length_append, List.length_cons]; omega
      rw [pieces, List.flatMap_cons, ih rest.length shorter _ rest rfl, ← split]

theorem scan_text (source : List Char) : (scan source).flatMap Piece.text = source :=
  scanFrom_text .start source

/-- The tokens among some pieces; an unreadable character is a failure. -/
def readableTokens : List Piece → Except Unreadable (List Token)
  | [] => .ok []
  | .token t :: ps => (readableTokens ps).map (t :: ·)
  | .unreadable u :: _ => .error u
  | .blank .. :: ps => readableTokens ps
  | .comment .. :: ps => readableTokens ps

/-- The tokens of a text, which has to be readable throughout. -/
def tokenize (source : List Char) : Except Unreadable (List Token) :=
  readableTokens (scan source)

end PvsIndex
