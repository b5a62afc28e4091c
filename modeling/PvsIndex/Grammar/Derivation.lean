import PvsIndex.Grammar.Rule
import PvsIndex.Tree.ParseTree

/-!
# Derivations: what the grammar means

`Derives x w parts` says that the tokens `w` are one way to write the symbol
`x`, and that `parts` is what they contribute to the tree around them.  It is
the grammar read without any parser: a token is itself, and a phrase is
written as one of its bodies, symbol by symbol.  A *sentence* is a row of
tokens that `start` derives.

`Derives.tokens` says that no token is lost on the way into the tree, whatever
the roles of the phrases.
-/

namespace PvsIndex

mutual

/-- These tokens write this symbol, and contribute these trees. -/
inductive Derives : Symbol → List Token → List ParseTree → Prop where
  | token (t : Token) : Derives (.terminal t.terminal) [t] [.leaf t]
  | phrase {n : Nonterminal} {body : List Symbol} {w : List Token} {parts : List ParseTree} :
      body ∈ n.bodies → DerivesAll body w parts → Derives (.phrase n) w (n.assemble parts)

/-- These tokens write these symbols one after the other, and contribute these trees. -/
inductive DerivesAll : List Symbol → List Token → List ParseTree → Prop where
  | nil : DerivesAll [] [] []
  | cons {x : Symbol} {xs : List Symbol} {w v : List Token} {parts more : List ParseTree} :
      Derives x w parts → DerivesAll xs v more → DerivesAll (x :: xs) (w ++ v) (parts ++ more)

end

/-- These tokens are a complete text. -/
def Sentence (w : List Token) : Prop :=
  ∃ trees, Derives (.phrase .start) w trees

theorem ParseTree.tokensOfAll_append (xs ys : List ParseTree) :
    tokensOfAll (xs ++ ys) = tokensOfAll xs ++ tokensOfAll ys := by
  induction xs with
  | nil => rfl
  | cons x xs ih => simp [tokensOfAll, ih]

/-- Whatever its role, a phrase has the tokens of its parts. -/
theorem Nonterminal.tokens_assemble (n : Nonterminal) (parts : List ParseTree) :
    ParseTree.tokensOfAll (n.assemble parts) = ParseTree.tokensOfAll parts := by
  unfold assemble
  split
  · simp [ParseTree.tokensOfAll, ParseTree.tokens]
  · rfl
  · split
    · rfl
    · simp [ParseTree.tokensOfAll, ParseTree.tokens]

mutual

/-- The leaves of what is derived are the tokens, in order. -/
theorem Derives.tokens {x : Symbol} {w : List Token} {parts : List ParseTree} :
    Derives x w parts → ParseTree.tokensOfAll parts = w
  | .token _ => rfl
  | .phrase _ all => by rw [Nonterminal.tokens_assemble, all.tokens]

/-- The leaves of what is derived are the tokens, in order. -/
theorem DerivesAll.tokens {xs : List Symbol} {w : List Token} {parts : List ParseTree} :
    DerivesAll xs w parts → ParseTree.tokensOfAll parts = w
  | .nil => rfl
  | .cons one more => by rw [ParseTree.tokensOfAll_append, one.tokens, more.tokens]

end

theorem Derives.tree_tokens {x : Symbol} {w : List Token} {tree : ParseTree}
    (h : Derives x w [tree]) : tree.tokens = w := by
  simpa [ParseTree.tokensOfAll] using h.tokens

end PvsIndex
