import PvsIndex.Parse.Stack
import PvsIndex.Token.Scan

/-!
# Reading on after an error

The parser goes over the pieces of a text once.  Blanks and comments pass by.
A token is offered to the stack; if there is no move for it, it is dropped and
reading goes on with the stack as the refusal left it.  An unreadable
character is dropped without touching the stack.  At the end of the pieces the
end itself is offered, once.

`Run` is the full account: one `Event` for each piece, in order, and then the
`Ending`.  Diagnostics and the tree are both read off it.
-/

namespace PvsIndex

/-- What happened to one piece.  A blank or a comment is passed over; a token is read,
or dropped because there was a move for other lookaheads only; a character that
begins nothing is dropped as well. -/
inductive Event where
  | passed (p : Piece)
  | taken (t : Token)
  | dropped (t : Token) (expected : List Lookahead)
  | unreadable (u : Unreadable)

/-- What happened at the end of the text: the tokens that were read make up these
trees, or the text stops too early.  The last token is then the last of the text,
read or dropped. -/
inductive Ending where
  | accepted (trees : List ParseTree)
  | refused (last : Option Token) (expected : List Lookahead)

/-- The account of reading a text: what happened to each piece, and at the end. -/
structure Run where
  events : List Event
  ending : Ending

namespace Run

/-- Read one piece. -/
def step (s : Stack) : Piece → Event × Stack
  | .token t =>
    match s.feed (.terminal t.terminal) [.leaf t] with
    | .taken s' => (.taken t, s')
    | .refused s' => (.dropped t s'.state.expected, s')
    | .accepted _ => (.dropped t [], s)
    | .stuck => (.dropped t [], s)
  | .unreadable u => (.unreadable u, s)
  | p => (.passed p, s)

/-- Read pieces one after the other. -/
def steps (s : Stack) : List Piece → List Event × Stack
  | [] => ([], s)
  | p :: ps =>
    let (event, s') := step s p
    let (events, s'') := steps s' ps
    (event :: events, s'')

/-- Offer the end of the text. -/
def finish (s : Stack) (last : Option Token) : Ending :=
  match s.feed .endOfText [] with
  | .accepted trees => .accepted trees
  | .refused s' => .refused last s'.state.expected
  | .taken _ => .refused last []
  | .stuck => .refused last []

/-- Read all pieces of a text, and then its end. -/
def ofPieces (pieces : List Piece) : Run :=
  let (events, s) := steps [] pieces
  ⟨events, finish s (pieces.filterMap Piece.token?).getLast?⟩

/-- Read a text. -/
def ofSource (source : List Char) : Run :=
  ofPieces (scan source)

end Run

end PvsIndex
