import PvsIndex.Tree.Node

/-!
# Spans: from a node back to the text

A node reaches from the first character of its first token through the last
character of its last token.  Lines, characters (`Place.character`) and offsets of
a span are those of its two places.  Token numbers below zero count from the end of
the stream.  Looking a node up can fail in two ways: it has no tokens, or a
number that the stream does not have.  `TreeFault` also has the third thing
that can be wrong with a tree, a declaration with the wrong number of names.
-/

namespace PvsIndex

/-- What can be wrong with a syntax tree: a node of some kind covers no tokens, a
declaration of some kind has so many names instead of one, or a token number is out
of range. -/
inductive TreeFault where
  | emptySpan (kind : String)
  | nameCount (kind : String) (names : Nat)
  | noSuchToken
deriving DecidableEq

/-- The wording of a fault in a tree. -/
def TreeFault.message : TreeFault → String
  | emptySpan kind => "syntax node '" ++ kind ++ "' covers no tokens"
  | nameCount kind names =>
    "malformed '" ++ kind ++ "' node: expected exactly one name, found " ++ toString names
  | noSuchToken => "list index out of range"

/-- From one place of a text up to another, which is past its last character. -/
structure Span where
  start : Place
  stop : Place
deriving DecidableEq

namespace TokenStream

/-- The token with a number; numbers below zero count from the end. -/
def token? (ts : TokenStream) (i : Int) : Option Token :=
  let fromStart := if i < 0 then i + ts.tokens.length else i
  if fromStart < 0 then none else ts.tokens[fromStart.toNat]?

/-- The span from one token through another. -/
def span (ts : TokenStream) (first last : Int) : Except TreeFault Span :=
  match ts.token? first, ts.token? last with
  | some f, some l => .ok ⟨f.start, l.stop⟩
  | _, _ => .error .noSuchToken

/-- The characters of a span, with everything between its tokens as written;
nothing if it stops before it starts. -/
def slice (ts : TokenStream) (s : Span) : List Char :=
  (ts.source.drop s.start.offset).take (s.stop.offset - s.start.offset)

/-- The text from one token through another. -/
def text (ts : TokenStream) (first last : Int) : Except TreeFault (List Char) :=
  (ts.span first last).map ts.slice

end TokenStream

namespace Node

/-- The span of a node. -/
def span (n : Node) (ts : TokenStream) : Except TreeFault Span :=
  match n.start, n.stop with
  | some first, some last => ts.span first last
  | _, _ => .error (.emptySpan n.kind)

/-- The text of a node, with everything between its tokens as written. -/
def sourceText (n : Node) (ts : TokenStream) : Except TreeFault (List Char) :=
  (n.span ts).map ts.slice

end Node

end PvsIndex
