import PvsIndex.Tree.ParseTree

/-!
# Syntax nodes

The tree that passes over a text work with.  Every node knows its kind, its
children and the numbers of its first and last token; a node without tokens
has neither number, and a leaf carries its token.

`Node.ofParseTree?` numbers the tokens of a parse tree from left to right.  If
one token stands at several leaves, all of them get the number of its last
occurrence, so the token with a leaf's number is always the leaf's token.
-/

namespace PvsIndex

/-- A node of the syntax tree.  Its kind is that of a phrase, or the name of the
terminal at a leaf, which has the token; `start` and `stop` are the numbers of its
first and last token. -/
structure Node where
  kind : String
  children : List Node
  start : Option Int
  stop : Option Int
  token : Option Token

/-- The tokens of a text, in order, beside the text. -/
structure TokenStream where
  source : List Char
  tokens : List Token

namespace Node

mutual

/-- The texts of the tokens below, joined without anything between. -/
def text : Node → List Char
  | ⟨_, _, _, _, some t⟩ => t.text
  | ⟨_, children, _, _, none⟩ => textOfAll children

/-- The texts of several nodes, joined. -/
def textOfAll : List Node → List Char
  | [] => []
  | n :: ns => n.text ++ textOfAll ns

end

mutual

/-- A node with its depth, then everything below it, from left to right. -/
def preorderAt (depth : Nat) : Node → List (Nat × Node)
  | ⟨kind, children, start, stop, token⟩ =>
    (depth, ⟨kind, children, start, stop, token⟩) :: preorderOfAll (depth + 1) children

/-- Several nodes at one depth, each followed by everything below it. -/
def preorderOfAll (depth : Nat) : List Node → List (Nat × Node)
  | [] => []
  | n :: ns => n.preorderAt depth ++ preorderOfAll depth ns

end

/-- A node, then everything below it, from left to right. -/
def preorder (n : Node) : List Node :=
  (n.preorderAt 0).map Prod.snd

/-- The leaf of the token with this number. -/
def ofToken (t : Token) (number : Int) : Node :=
  ⟨t.terminal.name, [], some number, some number, some t⟩

/-- A node over its parts; it starts where the first part with a token starts,
and stops where the last such part stops. -/
def ofChildren (kind : String) (children : List Node) : Node :=
  ⟨kind, children, children.findSome? Node.start, children.reverse.findSome? Node.stop, none⟩

/-- The number of a token: the position of its last occurrence among `count`
tokens, which are given from the last to the first.  Tokens are compared along with
their places.  No two tokens of a text start at one place, so among them this is
the comparison of occurrences. -/
def lastPosition (latestFirst : List Token) (count : Nat) (t : Token) : Int :=
  ((count - 1 - latestFirst.findIdx t.same : Nat) : Int)

mutual

/-- What a parse tree becomes when `number` numbers its tokens; a gap becomes nothing. -/
def convert? (number : Token → Int) : ParseTree → Option Node
  | .leaf t => some (ofToken t (number t))
  | .node kind children => some (ofChildren kind (convertAll number children))
  | .gap => none

/-- What several parse trees become; gaps are passed over. -/
def convertAll (number : Token → Int) : List ParseTree → List Node
  | [] => []
  | tree :: trees =>
    match convert? number tree with
    | some n => n :: convertAll number trees
    | none => convertAll number trees

end

/-- The syntax tree of a parse tree; a gap has none. -/
def ofParseTree? (tree : ParseTree) : Option Node :=
  let latestFirst := tree.tokens.reverse
  convert? (lastPosition latestFirst latestFirst.length) tree

end Node

end PvsIndex
