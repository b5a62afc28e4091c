import PvsIndex.Tree.Node

/-!
# From a parse tree to a syntax tree

What stays the same when a parse tree becomes a syntax tree: its shape, gaps
apart (`ShapedLike`), and its tokens (`Node.tokens`).  Both are said of the two
trees as they stand, whatever the numbers of the tokens are, so a result about a
syntax tree need not speak of how it was made.

Everything about all nodes of a tree is said of its preorder row, in which a node
stands before what is below it (`Node.preorder_eq`).
-/

namespace PvsIndex

/-! ## Nodes in order -/

namespace Node

mutual

theorem map_snd_preorderAt (depth : Nat) :
    ∀ n : Node, (n.preorderAt depth).map Prod.snd = n.preorder
  | ⟨kind, children, start, stop, token⟩ => by
      have below := map_snd_preorderOfAll (depth + 1) children
      have below' := map_snd_preorderOfAll 1 children
      simp only [preorder, preorderAt, List.map_cons, below, below']

theorem map_snd_preorderOfAll (depth : Nat) :
    ∀ ns : List Node, (preorderOfAll depth ns).map Prod.snd = ns.flatMap preorder
  | [] => rfl
  | n :: ns => by
      rw [preorderOfAll, List.map_append, map_snd_preorderAt depth n,
        map_snd_preorderOfAll depth ns, List.flatMap_cons]

end

theorem preorder_eq (n : Node) : n.preorder = n :: n.children.flatMap preorder := by
  obtain ⟨kind, children, start, stop, token⟩ := n
  rw [preorder, preorderAt, List.map_cons, map_snd_preorderOfAll]

theorem convertAll_cons (number : Token → Int) (tree : ParseTree) (trees : List ParseTree) :
    convertAll number (tree :: trees) = (convert? number tree).toList ++ convertAll number trees := by
  rw [convertAll]
  cases convert? number tree <;> rfl

theorem convertAll_append (number : Token → Int) (xs ys : List ParseTree) :
    convertAll number (xs ++ ys) = convertAll number xs ++ convertAll number ys := by
  induction xs with
  | nil => rfl
  | cons x xs ih => rw [List.cons_append, convertAll_cons, convertAll_cons, ih, List.append_assoc]

theorem convertAll_singleton (number : Token → Int) (tree : ParseTree) :
    convertAll number [tree] = (convert? number tree).toList := by
  rw [convertAll_cons, convertAll, List.append_nil]

/-- A syntax tree is what its parse tree becomes under the numbering by last
occurrence. -/
theorem convertAll_of_ofParseTree? {tree : ParseTree} {root : Node}
    (h : ofParseTree? tree = some root) :
    convertAll (lastPosition tree.tokens.reverse tree.tokens.length) [tree] = [root] := by
  rw [convertAll_singleton]
  simp only [ofParseTree?, List.length_reverse] at h
  rw [h, Option.toList_some]

mutual

/-- The tokens met on the way through a tree are those at its leaves. -/
theorem filterMap_token_convert? (number : Token → Int) : ∀ tree : ParseTree,
    ((convert? number tree).toList.flatMap preorder).filterMap Node.token = tree.tokens
  | .leaf t => rfl
  | .gap => rfl
  | .node kind children => by
      have below := filterMap_token_convertAll number children
      rw [convert?, Option.toList_some, List.flatMap_singleton, preorder_eq, ParseTree.tokens,
        ← below]
      rfl

theorem filterMap_token_convertAll (number : Token → Int) : ∀ trees : List ParseTree,
    ((convertAll number trees).flatMap preorder).filterMap Node.token =
      ParseTree.tokensOfAll trees
  | [] => rfl
  | tree :: trees => by
      rw [convertAll_cons, List.flatMap_append, List.filterMap_append,
        filterMap_token_convert? number tree, filterMap_token_convertAll number trees,
        ParseTree.tokensOfAll]

end

/-- The tokens below a node, from left to right. -/
def tokens (n : Node) : List Token :=
  n.preorder.filterMap Node.token

theorem tokens_eq (n : Node) : n.tokens = n.token.toList ++ n.children.flatMap tokens := by
  rw [tokens, preorder_eq, List.filterMap_cons, List.filterMap_flatMap]
  cases n.token <;> rfl

theorem tokens_of_convert? {number : Token → Int} {tree : ParseTree} {n : Node}
    (h : convert? number tree = some n) : n.tokens = tree.tokens := by
  have tokens := filterMap_token_convert? number tree
  rwa [h, Option.toList_some, List.flatMap_singleton] at tokens

end Node

/-! ## The same shape -/

mutual

/-- The node is the parse tree with its gaps taken out. -/
inductive ShapedLike : ParseTree → Node → Prop where
  | leaf {t : Token} {n : Node} : n.kind = t.terminal.name → n.children = [] →
      n.token = some t → ShapedLike (.leaf t) n
  | node {kind : String} {trees : List ParseTree} {n : Node} : n.kind = kind →
      n.token = none → ShapedLikeAll trees n.children → ShapedLike (.node kind trees) n

/-- The nodes are the parse trees that are not gaps, with their gaps taken out. -/
inductive ShapedLikeAll : List ParseTree → List Node → Prop where
  | nil : ShapedLikeAll [] []
  | gap {trees : List ParseTree} {ns : List Node} :
      ShapedLikeAll trees ns → ShapedLikeAll (.gap :: trees) ns
  | cons {tree : ParseTree} {trees : List ParseTree} {n : Node} {ns : List Node} :
      ShapedLike tree n → ShapedLikeAll trees ns → ShapedLikeAll (tree :: trees) (n :: ns)

end

namespace Node

mutual

theorem shapedLike_convert? (number : Token → Int) : ∀ (tree : ParseTree) {n : Node},
    convert? number tree = some n → ShapedLike tree n
  | .leaf _, _, h => by
      cases h
      exact .leaf rfl rfl rfl
  | .gap, _, h => by cases h
  | .node kind trees, _, h => by
      cases h
      exact .node rfl rfl (shapedLikeAll_convertAll number trees)

theorem shapedLikeAll_convertAll (number : Token → Int) : ∀ trees : List ParseTree,
    ShapedLikeAll trees (convertAll number trees)
  | [] => .nil
  | .gap :: trees => .gap (shapedLikeAll_convertAll number trees)
  | .leaf _ :: trees => .cons (.leaf rfl rfl rfl) (shapedLikeAll_convertAll number trees)
  | .node kind inner :: trees =>
      .cons (shapedLike_convert? number (.node kind inner) rfl) (shapedLikeAll_convertAll number trees)

end

theorem shapedLike_of_ofParseTree? {tree : ParseTree} {root : Node}
    (h : ofParseTree? tree = some root) : ShapedLike tree root :=
  shapedLike_convert? _ tree h

/-- A syntax tree has the tokens of its parse tree. -/
theorem tokens_of_ofParseTree? {tree : ParseTree} {root : Node}
    (h : ofParseTree? tree = some root) : root.tokens = tree.tokens :=
  tokens_of_convert? h

end Node

end PvsIndex
