import PvsIndex.Terminal
import PvsIndex.Text.Place

/-!
# Tokens and pieces

Reading cuts a text, from left to right and without gaps, into pieces: tokens
for the grammar, blanks and comments that only separate them, and single
characters that begin nothing.  A piece knows its text and where it starts;
where it stops follows from these two, so no second position is stored that
could disagree.
-/

namespace PvsIndex

/-- A word of the text as it is written, with its terminal and the place at which it
starts. -/
structure Token where
  start : Place
  terminal : Terminal
  text : List Char
deriving DecidableEq

namespace Token

/-- The place just past a token. -/
def stop (t : Token) : Place :=
  t.start.afterAll t.text

/-- Are two tokens the same?  The offsets are compared first, since they nearly
always tell. -/
def same (t u : Token) : Bool :=
  t.start.offset == u.start.offset && t = u

@[simp] theorem same_iff {t u : Token} : t.same u = true ↔ t = u := by
  simp only [same, Bool.and_eq_true, beq_iff_eq, decide_eq_true_eq, and_iff_right_iff_imp]
  rintro rfl
  rfl

end Token

/-- A character at which no piece of the language begins, and where it stands. -/
structure Unreadable where
  place : Place
  char : Char
deriving DecidableEq

/-- One cut of a text. -/
inductive Piece where
  | blank (start : Place) (text : List Char)
  | comment (start : Place) (text : List Char)
  | token (t : Token)
  | unreadable (u : Unreadable)
deriving DecidableEq

namespace Piece

/-- The characters of a piece. -/
def text : Piece → List Char
  | blank _ text => text
  | comment _ text => text
  | token t => t.text
  | unreadable u => [u.char]

/-- Where a piece starts. -/
def start : Piece → Place
  | blank p _ => p
  | comment p _ => p
  | token t => t.start
  | unreadable u => u.place

/-- The token, if the piece is one. -/
def token? : Piece → Option Token
  | token t => some t
  | _ => none

end Piece

end PvsIndex
