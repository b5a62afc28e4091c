import PvsIndex.Proofs.Text.Lines
import PvsIndex.Proofs.Tree.Relabel

/-!
# Numbers in a tree

A parse tree becomes a syntax tree of the same shape without its gaps
(`ShapedLike`), in which every node has the numbers of its first and last token.
All of these numbers go back to the leaves: a leaf has the number of the last
occurrence of its token, and any other node starts with its first leaf and stops
with its last.

A parse tree may have gaps, empty nodes and the same token at several leaves, so
a node need not have numbers, and it may stop before it starts.  If no token is
there twice, none of this disorder is possible: the leaves are numbered from left
to right, and every node is an interval of them (`Node.Fills`).  A token has its
place with it, so the same token can only come from the same place of a text.

Every node of the tree comes from a part of the parse tree
(`Node.exists_of_mem_convertAll`), so what is known of the root of any tree is
known of all nodes, and the tokens of a node stand together among those of the
tree (`Node.isInfix_tokens`).
-/

namespace PvsIndex

namespace Node

/-! ## Leaves -/

/-- The leaves of a tree, from left to right. -/
def leaves (n : Node) : List Node :=
  n.preorder.filter fun m => m.token.isSome

theorem leaves_of_inner {n : Node} (inner : n.token = none) :
    n.leaves = n.children.flatMap leaves := by
  rw [leaves, preorder_eq, List.filter_cons_of_neg (by simp [inner]), List.filter_flatMap]
  rfl

theorem textOfAll_eq_flatMap (ns : List Node) : textOfAll ns = ns.flatMap text := by
  induction ns with
  | nil => rfl
  | cons n ns ih => rw [textOfAll, ih, List.flatMap_cons]

section Convert

variable (number : Token → Int)

mutual

theorem leaves_convert? : ∀ tree : ParseTree,
    (convert? number tree).toList.flatMap leaves = tree.tokens.map fun t => ofToken t (number t)
  | .leaf _ => rfl
  | .gap => rfl
  | .node kind trees => by
      have below := leaves_convertAll trees
      rw [convert?, Option.toList_some, List.flatMap_singleton, leaves_of_inner rfl]
      exact below

/-- The leaves are the tokens with their numbers. -/
theorem leaves_convertAll : ∀ trees : List ParseTree,
    (convertAll number trees).flatMap leaves =
      (ParseTree.tokensOfAll trees).map fun t => ofToken t (number t)
  | [] => rfl
  | tree :: trees => by
      rw [convertAll_cons, List.flatMap_append, leaves_convert? tree, leaves_convertAll trees,
        ParseTree.tokensOfAll, List.map_append]

end

mutual

theorem text_convert? : ∀ tree : ParseTree,
    (convert? number tree).toList.flatMap text = tree.tokens.flatMap Token.text
  | .leaf t => by
      rw [convert?, Option.toList_some, ParseTree.tokens, List.flatMap_singleton,
        List.flatMap_singleton, ofToken, text]
  | .gap => rfl
  | .node kind trees => by
      have below := text_convertAll trees
      rw [convert?, Option.toList_some, List.flatMap_singleton, ofChildren, text,
        textOfAll_eq_flatMap]
      exact below

/-- The text of a node is that of its tokens. -/
theorem text_convertAll : ∀ trees : List ParseTree,
    (convertAll number trees).flatMap text = (ParseTree.tokensOfAll trees).flatMap Token.text
  | [] => rfl
  | tree :: trees => by
      rw [convertAll_cons, List.flatMap_append, text_convert? tree, text_convertAll trees,
        ParseTree.tokensOfAll, List.flatMap_append]

end

mutual

theorem exists_of_mem_convert? : ∀ (tree : ParseTree) {n : Node},
    n ∈ (convert? number tree).toList.flatMap preorder → ∃ part, convert? number part = some n
  | .leaf t, n, h => by
      obtain rfl : n = ofToken t (number t) := by
        simpa [convert?, preorder_eq, ofToken] using h
      exact ⟨.leaf t, rfl⟩
  | .gap, _, h => by cases h
  | .node kind trees, n, h => by
      rw [convert?, Option.toList_some, List.flatMap_singleton, preorder_eq] at h
      rcases List.mem_cons.mp h with rfl | below
      · exact ⟨.node kind trees, rfl⟩
      · exact exists_of_mem_convertAll trees below

/-- Every node of a tree is a part of the parse tree. -/
theorem exists_of_mem_convertAll : ∀ (trees : List ParseTree) {n : Node},
    n ∈ (convertAll number trees).flatMap preorder → ∃ part, convert? number part = some n
  | [], _, h => by cases h
  | tree :: trees, n, h => by
      rw [convertAll_cons, List.flatMap_append, List.mem_append] at h
      rcases h with here | there
      · exact exists_of_mem_convert? tree here
      · exact exists_of_mem_convertAll trees there

end

end Convert

/-! ## Everything below a node -/

mutual

/-- What is below a node stands together in the tree. -/
theorem isInfix_preorder : ∀ (root : Node) {n : Node}, n ∈ root.preorder →
    n.preorder <:+: root.preorder
  | ⟨kind, children, start, stop, token⟩, n, h => by
      rw [preorder_eq] at h
      rcases List.mem_cons.mp h with rfl | below
      · exact List.infix_rfl
      · rw [preorder_eq ⟨kind, children, start, stop, token⟩]
        exact (isInfix_flatMap_preorder children below).trans (List.suffix_cons _ _).isInfix

theorem isInfix_flatMap_preorder : ∀ (ns : List Node) {n : Node}, n ∈ ns.flatMap preorder →
    n.preorder <:+: ns.flatMap preorder
  | [], _, h => by cases h
  | m :: ns, n, h => by
      rw [List.flatMap_cons, List.mem_append] at h
      rw [List.flatMap_cons]
      rcases h with here | there
      · exact (isInfix_preorder m here).trans (List.prefix_append _ _).isInfix
      · exact (isInfix_flatMap_preorder ns there).trans (List.suffix_append _ _).isInfix

end

theorem mem_preorder_self (n : Node) : n ∈ n.preorder := by
  rw [preorder_eq]
  exact List.mem_cons_self

theorem mem_preorder_of_child {n c : Node} (h : c ∈ n.children) : c ∈ n.preorder := by
  rw [preorder_eq]
  exact List.mem_cons_of_mem _ (List.mem_flatMap.mpr ⟨c, h, c.mem_preorder_self⟩)

theorem mem_preorder_trans {root n m : Node} (h : n ∈ root.preorder) (h' : m ∈ n.preorder) :
    m ∈ root.preorder :=
  (isInfix_preorder root h).subset h'

/-- The tokens below a node stand together among those of the tree. -/
theorem isInfix_tokens {root n : Node} (h : n ∈ root.preorder) : n.tokens <:+: root.tokens :=
  (isInfix_preorder root h).filterMap _

/-! ## Numbers -/

/-- What a node has from its tokens, in whatever way they are numbered. -/
structure IsNumbered (number : Token → Int) (n : Node) : Prop where
  leaf : ∀ t, n.token = some t → n.tokens = [t]
  leaves : n.leaves = n.tokens.map fun t => ofToken t (number t)
  text : n.text = n.tokens.flatMap Token.text
  start : n.start = n.tokens.head?.map number
  stop : n.stop = n.tokens.getLast?.map number

/-- All nodes of a tree are numbered by their tokens. -/
theorem isNumbered_of_mem {number : Token → Int} {tree : ParseTree} {root n : Node}
    (converted : convert? number tree = some root) (h : n ∈ root.preorder) :
    n.IsNumbered number := by
  obtain ⟨part, here⟩ : ∃ part, convert? number part = some n := by
    refine exists_of_mem_convert? number tree ?_
    rwa [converted, Option.toList_some, List.flatMap_singleton]
  have leaf : ∀ t, n.token = some t → n.tokens = [t] := by
    intro t token
    cases part with
    | leaf u =>
        cases here
        cases token
        rfl
    | gap => cases here
    | node kind trees =>
        cases here
        cases token
  have tokens := tokens_of_convert? here
  have leaves := leaves_convert? number part
  have text := text_convert? number part
  have start := start_convert? number part
  have stop := stop_convert? number part
  rw [here, Option.toList_some, List.flatMap_singleton] at leaves text
  rw [here, Option.bind_some] at start stop
  rw [← tokens] at leaves text start stop
  exact ⟨leaf, leaves, text, start, stop⟩

end Node

/-- The last occurrence of the token in the row is here. -/
def LastAt (ts : List Token) (t : Token) (k : Nat) : Prop :=
  ts[k]? = some t ∧ ∀ j, k < j → ts[j]? ≠ some t

theorem lastAt_lastIndex {ts : List Token} {t : Token} (h : t ∈ ts) :
    LastAt ts t (lastIndex ts t) := by
  refine ⟨?_, ?_⟩
  · have located := TokenStream.locates_lastPosition ⟨[], ts⟩ t h
    rwa [lastPosition_eq, TokenStream.token?_natCast] at located
  · intro j behind again
    obtain ⟨inside, same⟩ := List.getElem?_eq_some_iff.mp again
    rw [lastIndex] at behind
    -- seen from the end, this occurrence would come before the first one found
    have earlier : ts.length - 1 - j < ts.reverse.findIdx t.same := by omega
    have other := List.not_of_lt_findIdx earlier
    have index : ts.length - 1 - (ts.length - 1 - j) = j := by omega
    simp only [List.getElem_reverse, index, same, Token.same_iff.mpr] at other
    cases other

namespace Node

/-- A leaf has the number of the last occurrence of its token.  A node starts with
its first leaf and stops with its last, and has no numbers if it has no leaf. -/
structure IsBounded (ts : List Token) (n : Node) : Prop where
  leaf : ∀ t, n.token = some t →
    ∃ k : Nat, LastAt ts t k ∧ n.start = some (k : Int) ∧ n.stop = some (k : Int)
  start : n.start = n.leaves.head?.bind Node.start
  stop : n.stop = n.leaves.getLast?.bind Node.stop
  no_start : n.start = none ↔ n.leaves = []
  no_stop : n.stop = none ↔ n.leaves = []

theorem IsNumbered.isBounded {ts : List Token} {n : Node}
    (h : n.IsNumbered fun t => lastIndex ts t) (inside : n.tokens ⊆ ts) : n.IsBounded ts where
  leaf := by
    intro t token
    have alone := h.leaf t token
    have here : t ∈ ts := inside (by rw [alone]; exact List.mem_singleton_self t)
    refine ⟨lastIndex ts t, lastAt_lastIndex here, ?_, ?_⟩
    · rw [h.start, alone]
      rfl
    · rw [h.stop, alone]
      rfl
  start := by
    rw [h.start, h.leaves, List.head?_map]
    cases n.tokens.head? <;> rfl
  stop := by
    rw [h.stop, h.leaves, List.getLast?_map]
    cases n.tokens.getLast? <;> rfl
  no_start := by
    rw [h.start, h.leaves, Option.map_eq_none_iff, List.head?_eq_none_iff, List.map_eq_nil_iff]
  no_stop := by
    rw [h.stop, h.leaves, Option.map_eq_none_iff, List.getLast?_eq_none_iff, List.map_eq_nil_iff]

end Node

/-! ## Rows without repetitions -/

section Nodup

variable {ts before w after : List Token}

theorem lastIndex_of_split {t : Token} (nodup : ts.Nodup) (split : ts = before ++ t :: after) :
    lastIndex ts t = before.length := by
  subst split
  have inside : before.length < (before ++ t :: after).length := by simp
  have here : (before ++ t :: after)[before.length] = t := by simp
  have counted := lastIndex_getElem nodup inside
  rwa [here] at counted

/-- The tokens of a stretch have the numbers of their places. -/
theorem lastIndex_of_head? {f : Token} (nodup : ts.Nodup) (split : before ++ w ++ after = ts)
    (first : w.head? = some f) : lastIndex ts f = before.length := by
  obtain ⟨behind, rfl⟩ := List.head?_eq_some_iff.mp first
  have here : ts = before ++ f :: (behind ++ after) := by
    rw [← split, List.append_assoc, List.cons_append]
  exact lastIndex_of_split nodup here

theorem lastIndex_of_getLast? {l : Token} (nodup : ts.Nodup) (split : before ++ w ++ after = ts)
    (last : w.getLast? = some l) : lastIndex ts l = (before ++ w).length - 1 := by
  obtain ⟨front, rfl⟩ := List.getLast?_eq_some_iff.mp last
  have here : ts = (before ++ front) ++ l :: after := by
    rw [← split]
    simp
  have length : (before ++ (front ++ [l])).length = (before ++ front).length + 1 := by
    rw [← List.append_assoc, List.length_append, List.length_singleton]
  rw [lastIndex_of_split nodup here, length, Nat.add_sub_cancel]

end Nodup

namespace Node

/-- The node is the interval of the leaves from the number `first` up to the number
`past`, which it does not include. -/
structure Fills (n root : Node) (ts : List Token) (first past : Nat) : Prop where
  within : first ≤ past ∧ past ≤ ts.length
  leaves : n.leaves = root.leaves.extract first past
  text : n.text = (ts.extract first past).flatMap Token.text
  numbers : first < past → n.start = some (first : Int) ∧ n.stop = some ((past - 1 : Nat) : Int)
  empty : first = past → n.start = none ∧ n.stop = none

theorem IsNumbered.exists_fills {ts : List Token} {root n : Node} (nodup : ts.Nodup)
    (whole : root.IsNumbered fun t => lastIndex ts t) (tokens : root.tokens = ts)
    (part : n.IsNumbered fun t => lastIndex ts t) (below : n ∈ root.preorder) :
    ∃ first past, n.Fills root ts first past := by
  obtain ⟨before, after, split⟩ := isInfix_tokens below
  rw [tokens] at split
  have middle : ts.extract before.length (before ++ n.tokens).length = n.tokens := by
    rw [← split, extract_middle]
  refine ⟨before.length, (before ++ n.tokens).length, ?_, ?_, ?_, ?_, ?_⟩
  · rw [← split]
    exact ⟨(List.prefix_append _ _).length_le, (List.prefix_append _ _).length_le⟩
  · have mapped := congrArg (List.map fun t => ofToken t (lastIndex ts t)) middle
    rw [List.extract_eq_take_drop, List.map_take, List.map_drop] at mapped
    rw [part.leaves, whole.leaves, tokens, List.extract_eq_take_drop, mapped]
  · rw [middle, part.text]
  · intro ahead
    have nonempty : n.tokens ≠ [] := by
      intro empty
      rw [empty, List.append_nil] at ahead
      exact Nat.lt_irrefl _ ahead
    have first := List.head?_eq_some_head nonempty
    have last := List.getLast?_eq_some_getLast nonempty
    rw [part.start, part.stop, first, last, Option.map_some, Option.map_some,
      lastIndex_of_head? nodup split first, lastIndex_of_getLast? nodup split last]
    exact ⟨rfl, rfl⟩
  · intro together
    have nothing : n.tokens = [] := by
      rw [List.length_append] at together
      exact List.eq_nil_of_length_eq_zero (by omega)
    rw [part.start, part.stop, nothing]
    exact ⟨rfl, rfl⟩

end Node

/-! ## The syntax tree of a parse tree -/

/-- All nodes of a syntax tree have their numbers from the tokens of the parse tree. -/
theorem isNumbered_of_ofParseTree? {tree : ParseTree} {root n : Node}
    (h : Node.ofParseTree? tree = some root) (below : n ∈ root.preorder) :
    n.IsNumbered fun t => lastIndex tree.tokens t := by
  simp only [Node.ofParseTree?, List.length_reverse] at h
  exact Node.isNumbered_of_mem h below

/-- Any parse tree has a syntax tree of the same shape without the gaps, with the same
tokens in the same order, in which all nodes are bounded by their leaves.  If no
token is there twice, the leaves are numbered from left to right, and every node is
an interval of them. -/
theorem tree_numbered_by_tokens (kind : String) (trees : List ParseTree) :
    ∃ root, Node.ofParseTree? (.node kind trees) = some root ∧
      ShapedLike (.node kind trees) root ∧
      root.tokens = ParseTree.tokensOfAll trees ∧
      (∀ n ∈ root.preorder, n.IsBounded (ParseTree.tokensOfAll trees)) ∧
      ((ParseTree.tokensOfAll trees).Nodup →
        (∀ (k : Nat) (leaf : Node), root.leaves[k]? = some leaf → leaf.start = some (k : Int)) ∧
        ∀ n ∈ root.preorder,
          ∃ first past, n.Fills root (ParseTree.tokensOfAll trees) first past) := by
  obtain ⟨root, converted⟩ : ∃ root, Node.ofParseTree? (.node kind trees) = some root := ⟨_, rfl⟩
  have tokens := Node.tokens_of_ofParseTree? converted
  rw [ParseTree.tokens] at tokens
  have whole := isNumbered_of_ofParseTree? converted root.mem_preorder_self
  refine ⟨root, converted, Node.shapedLike_of_ofParseTree? converted, tokens, ?_, ?_⟩
  · intro n below
    refine (isNumbered_of_ofParseTree? converted below).isBounded ?_
    have part := (Node.isInfix_tokens below).subset
    rwa [tokens] at part
  · intro nodup
    refine ⟨?_, ?_⟩
    · intro k leaf found
      rw [whole.leaves, tokens, List.getElem?_map, Option.map_eq_some_iff] at found
      obtain ⟨t, here, rfl⟩ := found
      obtain ⟨inside, rfl⟩ := List.getElem?_eq_some_iff.mp here
      show some (lastIndex _ _ : Int) = _
      rw [ParseTree.tokens, lastIndex_getElem nodup inside]
    · intro n below
      exact whole.exists_fills nodup tokens (isNumbered_of_ofParseTree? converted below) below

/-- A name, a gap, an empty node and a number. -/
theorem tree_numbered_by_tokens_gap :
    ∃ root, Node.ofParseTree? (.node "pair"
        [.leaf ⟨⟨0, 1, 1⟩, .ident, ['a']⟩, .gap, .node "none" [],
          .leaf ⟨⟨2, 1, 3⟩, .number, ['1']⟩]) = some root ∧
      (∀ (k : Nat) (leaf : Node), root.leaves[k]? = some leaf → leaf.start = some (k : Int)) ∧
      ∀ n ∈ root.preorder, ∃ first past, n.Fills root
        [⟨⟨0, 1, 1⟩, .ident, ['a']⟩, ⟨⟨2, 1, 3⟩, .number, ['1']⟩] first past := by
  obtain ⟨root, converted, _, _, _, ordered⟩ := tree_numbered_by_tokens "pair"
    [.leaf ⟨⟨0, 1, 1⟩, .ident, ['a']⟩, .gap, .node "none" [],
      .leaf ⟨⟨2, 1, 3⟩, .number, ['1']⟩]
  exact ⟨root, converted, ordered (by decide)⟩

-- the name comes again behind the first node, which so stops before it starts
example :
    (Node.ofParseTree? (.node "pair"
        [.node "inner" [.leaf ⟨⟨0, 1, 1⟩, .ident, ['a']⟩, .leaf ⟨⟨2, 1, 3⟩, .number, ['1']⟩],
          .leaf ⟨⟨0, 1, 1⟩, .ident, ['a']⟩])).map
      (fun root => root.children.map fun n => (n.start, n.stop)) =
    some [(some 2, some 1), (some 2, some 2)] := by
  rfl

end PvsIndex
