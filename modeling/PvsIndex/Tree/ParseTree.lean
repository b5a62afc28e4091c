import PvsIndex.Grammar.Symbol
import PvsIndex.Token.Basic

/-!
# Parse trees

What the parser builds: tokens at the leaves, kinds of phrases at the inner
nodes, every token kept.  A tree made by hand may also have gaps, which stand
for nothing and are passed over by everyone who reads the tree.

`Nonterminal.assemble` is where roles take effect: it turns the parts read for
a phrase into what the phrase contributes to the tree around it.
-/

namespace PvsIndex

/-- A tree over the tokens of a text. -/
inductive ParseTree where
  | leaf (t : Token)
  | node (kind : String) (children : List ParseTree)
  | gap

namespace ParseTree

mutual

/-- The tokens at the leaves, from left to right. -/
def tokens : ParseTree → List Token
  | leaf t => [t]
  | node _ children => tokensOfAll children
  | gap => []

/-- The tokens at the leaves of several trees, from left to right. -/
def tokensOfAll : List ParseTree → List Token
  | [] => []
  | tree :: trees => tree.tokens ++ tokensOfAll trees

end

end ParseTree

/-- What a phrase with these parts contributes to the tree around it. -/
def Nonterminal.assemble (n : Nonterminal) (parts : List ParseTree) : List ParseTree :=
  match n.role with
  | .named kind => [.node kind parts]
  | .spliced => parts
  | .folded kind =>
    match parts with
    | [part] => [part]
    | _ => [.node kind parts]

end PvsIndex
