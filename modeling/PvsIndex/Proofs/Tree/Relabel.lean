import Mathlib.Data.List.Nodup
import PvsIndex.Proofs.Parse.Recovery
import PvsIndex.Proofs.Tree.Location

/-!
# Trees over other tokens

A derivation looks at the terminals of its tokens and at nothing else, so other
tokens with the same terminals have the same derivation, and their tree is the
same tree with these tokens at its leaves (`Derives.relabel`).

The outline of a syntax tree is the tree without its tokens: the kind of every
node and the numbers of its first and last token.  Texts whose tokens have the
same terminals have trees with the same outline (`outline?_parse_of_terminals`).
To see this both trees are relabelled so that each leaf shows its number in
place of its token; the tokens of a text are all different, so these numbers
count the leaves from left to right, and the two relabelled trees are derived
from one and the same row of tokens.
-/

namespace PvsIndex

/-! ## Relabelling -/

namespace ParseTree

mutual

/-- The tree with other tokens at its leaves. -/
def relabel (f : Token → Token) : ParseTree → ParseTree
  | leaf t => leaf (f t)
  | node kind children => node kind (relabelAll f children)
  | gap => gap

/-- Several trees with other tokens at their leaves. -/
def relabelAll (f : Token → Token) : List ParseTree → List ParseTree
  | [] => []
  | tree :: trees => tree.relabel f :: relabelAll f trees

end

theorem relabelAll_eq_map (f : Token → Token) (trees : List ParseTree) :
    relabelAll f trees = trees.map (relabel f) := by
  induction trees with
  | nil => rfl
  | cons tree trees ih => rw [relabelAll, ih, List.map_cons]

theorem relabelAll_append (f : Token → Token) (xs ys : List ParseTree) :
    relabelAll f (xs ++ ys) = relabelAll f xs ++ relabelAll f ys := by
  simp only [relabelAll_eq_map, List.map_append]

mutual

theorem tokens_relabel (f : Token → Token) : ∀ tree : ParseTree,
    (tree.relabel f).tokens = tree.tokens.map f
  | .leaf _ => rfl
  | .node _ children => tokensOfAll_relabelAll f children
  | .gap => rfl

theorem tokensOfAll_relabelAll (f : Token → Token) : ∀ trees : List ParseTree,
    tokensOfAll (relabelAll f trees) = (tokensOfAll trees).map f
  | [] => rfl
  | tree :: trees => by
      rw [relabelAll, tokensOfAll, tokens_relabel f tree, tokensOfAll_relabelAll f trees,
        tokensOfAll, List.map_append]

end

end ParseTree

/-- Roles take no notice of tokens. -/
theorem Nonterminal.assemble_relabelAll (n : Nonterminal) (f : Token → Token)
    (parts : List ParseTree) :
    n.assemble (ParseTree.relabelAll f parts) = ParseTree.relabelAll f (n.assemble parts) := by
  unfold assemble
  cases n.role with
  | named kind => rfl
  | spliced => rfl
  | folded kind =>
      match parts with
      | [] => rfl
      | [part] => rfl
      | part :: other :: parts => rfl

mutual

/-- Other tokens with the same terminals have the same derivation. -/
theorem Derives.relabel {f : Token → Token} (hf : ∀ t, (f t).terminal = t.terminal) {x : Symbol}
    {w : List Token} {parts : List ParseTree} :
    Derives x w parts → Derives x (w.map f) (ParseTree.relabelAll f parts)
  | .token t => by
      have leaf := Derives.token (f t)
      rw [hf] at leaf
      exact leaf
  | .phrase hb all => by
      rw [← Nonterminal.assemble_relabelAll]
      exact .phrase hb (all.relabel hf)

theorem DerivesAll.relabel {f : Token → Token} (hf : ∀ t, (f t).terminal = t.terminal)
    {xs : List Symbol} {w : List Token} {parts : List ParseTree} :
    DerivesAll xs w parts → DerivesAll xs (w.map f) (ParseTree.relabelAll f parts)
  | .nil => .nil
  | .cons one others => by
      rw [List.map_append, ParseTree.relabelAll_append]
      exact .cons (one.relabel hf) (others.relabel hf)

end

/-! ## Outlines -/

/-- What is left of a node without its token: its depth, its kind and the numbers
of its first and last token. -/
structure OutlineEntry where
  depth : Nat
  kind : String
  start : Option Int
  stop : Option Int
deriving DecidableEq

namespace Node

def outlineEntry (depth : Nat) (n : Node) : OutlineEntry :=
  ⟨depth, n.kind, n.start, n.stop⟩

/-- The nodes of a tree in order, without their tokens.  The depths say how they
are nested. -/
def outline (n : Node) : List OutlineEntry :=
  (n.preorderAt 0).map fun (depth, m) => m.outlineEntry depth

/-- The outlines of several nodes at one depth. -/
def outlineOfAll (depth : Nat) (ns : List Node) : List OutlineEntry :=
  (preorderOfAll depth ns).map fun (depth, m) => m.outlineEntry depth

theorem outlineOfAll_append (depth : Nat) (ms ns : List Node) :
    outlineOfAll depth (ms ++ ns) = outlineOfAll depth ms ++ outlineOfAll depth ns := by
  induction ms with
  | nil => rfl
  | cons m ms ih =>
      simp only [outlineOfAll, List.cons_append, preorderOfAll, List.map_append] at ih ⊢
      rw [ih, List.append_assoc]

theorem outlineOfAll_singleton (depth : Nat) (n : Node) :
    outlineOfAll depth [n] = n.outlineEntry depth :: outlineOfAll (depth + 1) n.children := by
  obtain ⟨kind, children, start, stop, token⟩ := n
  simp only [outlineOfAll, preorderOfAll, preorderAt, List.append_nil, List.map_cons]

theorem outline_eq (n : Node) : n.outline = outlineOfAll 0 [n] := by
  simp only [outline, outlineOfAll, preorderOfAll, List.append_nil]

section Convert

variable {f : Token → Token} {number number' : Token → Int}

theorem outlineEntry_ofChildren (same : ∀ t, number' (f t) = number t) (depth : Nat)
    (kind : String) (children : List ParseTree) :
    (ofChildren kind (convertAll number' (ParseTree.relabelAll f children))).outlineEntry depth =
      (ofChildren kind (convertAll number children)).outlineEntry depth := by
  have numbers : number' ∘ f = number := funext same
  simp only [outlineEntry, ofChildren, findSome?_start_convertAll, findSome?_stop_convertAll,
    ParseTree.tokensOfAll_relabelAll, List.head?_map, List.getLast?_map, Option.map_map, numbers]

mutual

theorem outlineOfAll_convert? (hf : ∀ t, (f t).terminal = t.terminal)
    (same : ∀ t, number' (f t) = number t) : ∀ (tree : ParseTree) (depth : Nat),
      outlineOfAll depth (convert? number' (tree.relabel f)).toList =
        outlineOfAll depth (convert? number tree).toList
  | .leaf t, depth => by
      simp only [ParseTree.relabel, convert?, Option.toList_some, outlineOfAll_singleton,
        outlineEntry, ofToken, hf, same]
  | .gap, depth => rfl
  | .node kind children, depth => by
      simp only [ParseTree.relabel, convert?, Option.toList_some, outlineOfAll_singleton,
        outlineEntry_ofChildren same]
      exact congrArg _ (outlineOfAll_convertAll hf same children (depth + 1))

/-- The outline depends on the numbers of the tokens only. -/
theorem outlineOfAll_convertAll (hf : ∀ t, (f t).terminal = t.terminal)
    (same : ∀ t, number' (f t) = number t) : ∀ (trees : List ParseTree) (depth : Nat),
      outlineOfAll depth (convertAll number' (ParseTree.relabelAll f trees)) =
        outlineOfAll depth (convertAll number trees)
  | [], depth => rfl
  | tree :: trees, depth => by
      rw [ParseTree.relabelAll, convertAll_cons, convertAll_cons, outlineOfAll_append,
        outlineOfAll_append, outlineOfAll_convert? hf same tree depth,
        outlineOfAll_convertAll hf same trees depth]

end

end Convert

end Node

/-! ## Numbers for tokens -/

namespace Token

/-- A token that shows a number, and has the terminal of `t`. -/
def numbered (k : Nat) (t : Token) : Token :=
  ⟨⟨k, 1, 1⟩, t.terminal, []⟩

/-- The number that a token shows. -/
def shown (t : Token) : Int :=
  t.start.offset

end Token

/-- The position of the last occurrence of a token, if it occurs at all. -/
def lastIndex (ts : List Token) (t : Token) : Nat :=
  ts.length - 1 - ts.reverse.findIdx t.same

theorem lastPosition_eq (ts : List Token) (t : Token) :
    Node.lastPosition ts.reverse ts.length t = lastIndex ts t := rfl

/-- If no token occurs twice, the tokens are numbered in their order. -/
theorem lastIndex_getElem {ts : List Token} (nodup : ts.Nodup) {i : Nat} (hi : i < ts.length) :
    lastIndex ts ts[i] = i := by
  have located := TokenStream.locates_lastPosition ⟨[], ts⟩ ts[i] (List.getElem_mem hi)
  rw [lastPosition_eq, TokenStream.token?_natCast] at located
  obtain ⟨hk, same⟩ := List.getElem?_eq_some_iff.mp located
  exact (nodup.getElem_inj_iff).mp same

theorem map_numbered {ts : List Token} (nodup : ts.Nodup) :
    ts.map (fun t => Token.numbered (lastIndex ts t) t) = ts.mapIdx Token.numbered := by
  refine List.ext_getElem (by simp) fun i hi hi' => ?_
  rw [List.length_map] at hi
  rw [List.getElem_map, List.getElem_mapIdx, lastIndex_getElem nodup hi]

theorem mapIdx_numbered_of_terminals {ts us : List Token}
    (same : us.map Token.terminal = ts.map Token.terminal) :
    us.mapIdx Token.numbered = ts.mapIdx Token.numbered := by
  have lengths : us.length = ts.length := by simpa using congrArg List.length same
  refine List.ext_getElem (by simpa using lengths) fun i hi hi' => ?_
  rw [List.length_mapIdx] at hi hi'
  have here : us[i].terminal = ts[i].terminal := by
    have both := congrArg (fun terminals => terminals[i]?) same
    simpa [hi, hi'] using both
  rw [List.getElem_mapIdx, List.getElem_mapIdx, Token.numbered, Token.numbered, here]

/-- The tokens of a text stand one behind the other. -/
theorem tokenize_sorted {source : List Char} {ts : List Token} (h : tokenize source = .ok ts) :
    ts.Pairwise fun t u => t.start.Before u.start := by
  obtain ⟨_, rfl⟩ := readableTokens_eq_ok_iff.mp h
  obtain ⟨_, run, _, _⟩ := Run.recovers source
  have sorted := run.sorted.2
  have tokens : (scan source).filterMap Piece.token? = met (Run.ofSource source).events :=
    (met_steps [] (scan source)).symm
  rw [tokens, met, List.pairwise_filterMap]
  refine sorted.imp ?_
  intro e e' before t ht u hu
  rw [Piece.eq_token_of_token? ht, Piece.eq_token_of_token? hu] at before
  exact before

theorem tokenize_nodup {source : List Char} {ts : List Token} (h : tokenize source = .ok ts) :
    ts.Nodup := by
  refine (tokenize_sorted h).imp ?_
  rintro t u before rfl
  exact before.position.ne rfl

/-! ## The outline of a text -/

/-- The outline of a parsed text, if it has a tree. -/
def Parsed.outline? : Parsed → Option (List OutlineEntry)
  | tree root _ => some root.outline
  | rejected _ => none

/-- A text has an outline if nothing is said about it. -/
theorem diagnostics_eq_nil_iff_outline? {source : List Char} :
    (parse source).diagnostics = [] ↔ (parse source).outline?.isSome = true := by
  constructor
  · intro clean
    obtain ⟨root, ts, parsed⟩ := parse_diagnostics_eq_nil_iff.mp clean
    rw [parsed]
    rfl
  · intro outlined
    cases outcome : parse source with
    | tree root ts => rfl
    | rejected diagnostics =>
        rw [outcome] at outlined
        cases outlined

/-- The leaves of a tree, each with its number in place of its token. -/
def counted (ts : List Token) (trees : List ParseTree) : List ParseTree :=
  ParseTree.relabelAll (fun t => Token.numbered (lastIndex ts t) t) trees

/-- The outline of a tree can be read off the numbers at its leaves. -/
theorem outline_of_counted {tree : ParseTree} {root : Node}
    (converted : Node.ofParseTree? tree = some root) :
    root.outline =
      Node.outlineOfAll 0 (Node.convertAll Token.shown (counted tree.tokens [tree])) := by
  have by_numbers : Node.outlineOfAll 0 (Node.convertAll Token.shown
        (counted tree.tokens [tree])) =
      Node.outlineOfAll 0 (Node.convertAll
        (Node.lastPosition tree.tokens.reverse tree.tokens.length) [tree]) := by
    refine Node.outlineOfAll_convertAll ?_ ?_ [tree] 0
    · intro t
      rfl
    · intro t
      rfl
  rw [by_numbers, Node.convertAll_of_ofParseTree? converted, Node.outline_eq]

/-- Tokens that are all different derive the tree in which they are counted. -/
theorem Derives.counted {x : Symbol} {ts : List Token} {trees : List ParseTree}
    (h : Derives x ts trees) (nodup : ts.Nodup) :
    Derives x (ts.mapIdx Token.numbered) (PvsIndex.counted ts trees) := by
  rw [← map_numbered nodup]
  refine h.relabel ?_
  intro t
  rfl

/-- Texts with the same row of terminals have trees with the same outline. -/
theorem outline?_parse_of_terminals {source source' : List Char} {ts us : List Token}
    (tokens : tokenize source = .ok ts) (tokens' : tokenize source' = .ok us)
    (same : us.map Token.terminal = ts.map Token.terminal) :
    (parse source').outline? = (parse source).outline? := by
  -- it is enough to look at a text that has a tree
  suffices ∀ {source source' : List Char} {ts us : List Token}, tokenize source = .ok ts →
      tokenize source' = .ok us → us.map Token.terminal = ts.map Token.terminal →
      ∀ root stream, parse source = .tree root stream →
        (parse source').outline? = some root.outline by
    cases outcome : parse source with
    | tree root stream => exact this tokens tokens' same root stream outcome
    | rejected diagnostics =>
        cases outcome' : parse source' with
        | tree root' stream' =>
            have back := this tokens' tokens same.symm root' stream' outcome'
            rw [outcome] at back
            cases back
        | rejected diagnostics' => rfl
  intro source source' ts us tokens tokens' same root stream parsed
  obtain ⟨rfl, tokens_here, tree, derived, converted⟩ := parse_eq_tree_iff.mp parsed
  obtain rfl : ts = stream.tokens := Except.ok.inj (tokens.symm.trans tokens_here)
  obtain ⟨trees', derived'⟩ := derived.of_terminals same
  obtain ⟨tree', root', rfl, converted'⟩ := derived'.exists_root
  have parsed' : parse source' = .tree root' ⟨source', us⟩ :=
    parse_eq_tree_iff.mpr ⟨rfl, tokens', tree', derived', converted'⟩
  have leaves : tree.tokens = stream.tokens := derived.tree_tokens
  have leaves' : tree'.tokens = us := derived'.tree_tokens
  have numbers := derived.counted (tokenize_nodup tokens)
  have numbers' := derived'.counted (tokenize_nodup tokens')
  rw [mapIdx_numbered_of_terminals same] at numbers'
  rw [parsed', Parsed.outline?, outline_of_counted converted, outline_of_counted converted',
    leaves, leaves', numbers'.start_unique numbers]

end PvsIndex
