import PvsIndex.Proofs.Tree.Shape
import PvsIndex.Tree.Span

/-!
# Where a node stands in the text

A node starts with its first token and stops with its last, however its
children are nested.  So a node can be located as soon as its tokens can, and
the token with a given number is found in the stream even if it occurs there
more than once: the numbering by last occurrence sends each token to a place
where it stands.
-/

namespace PvsIndex

namespace Node

mutual

theorem start_convert? (number : Token → Int) : ∀ tree : ParseTree,
    (convert? number tree).bind Node.start = tree.tokens.head?.map number
  | .leaf _ => rfl
  | .gap => rfl
  | .node _ children => findSome?_start_convertAll number children

/-- The first number among the nodes of some trees is that of the first token. -/
theorem findSome?_start_convertAll (number : Token → Int) : ∀ trees : List ParseTree,
    (convertAll number trees).findSome? Node.start =
      (ParseTree.tokensOfAll trees).head?.map number
  | [] => rfl
  | tree :: trees => by
      have here := start_convert? number tree
      have there := findSome?_start_convertAll number trees
      rw [convertAll_cons, List.findSome?_append, there, ParseTree.tokensOfAll, List.head?_append,
        Option.map_or, ← here]
      cases convert? number tree <;> simp

end

mutual

theorem stop_convert? (number : Token → Int) : ∀ tree : ParseTree,
    (convert? number tree).bind Node.stop = tree.tokens.getLast?.map number
  | .leaf _ => rfl
  | .gap => rfl
  | .node _ children => findSome?_stop_convertAll number children

/-- The last number among the nodes of some trees is that of the last token. -/
theorem findSome?_stop_convertAll (number : Token → Int) : ∀ trees : List ParseTree,
    (convertAll number trees).reverse.findSome? Node.stop =
      (ParseTree.tokensOfAll trees).getLast?.map number
  | [] => rfl
  | tree :: trees => by
      have here := stop_convert? number tree
      have there := findSome?_stop_convertAll number trees
      rw [convertAll_cons, List.reverse_append, List.findSome?_append, there,
        ParseTree.tokensOfAll, List.getLast?_append, Option.map_or, ← here]
      cases convert? number tree <;> simp

end

end Node

namespace TokenStream

/-- These tokens are found in the stream under their numbers. -/
def Locates (ts : TokenStream) (number : Token → Int) (w : List Token) : Prop :=
  ∀ t ∈ w, ts.token? (number t) = some t

theorem Locates.mono {ts : TokenStream} {number : Token → Int} {w v : List Token}
    (h : ts.Locates number w) (sub : v ⊆ w) : ts.Locates number v := by
  intro t ht
  exact h t (sub ht)

theorem token?_natCast (ts : TokenStream) (k : Nat) : ts.token? (k : Int) = ts.tokens[k]? := by
  have not_below : ¬ ((k : Int) < 0) := by omega
  simp [token?, not_below]

/-- The numbering by last occurrence finds every token of the stream. -/
theorem locates_lastPosition (ts : TokenStream) :
    ts.Locates (Node.lastPosition ts.tokens.reverse ts.tokens.length) ts.tokens := by
  intro t ht
  have found : ts.tokens.reverse.findIdx t.same < ts.tokens.reverse.length :=
    List.findIdx_lt_length_of_exists ⟨t, List.mem_reverse.mpr ht, Token.same_iff.mpr rfl⟩
  have here := List.findIdx_getElem (w := found)
  rw [Token.same_iff, List.getElem_reverse] at here
  rw [List.length_reverse] at found
  rw [Node.lastPosition, token?_natCast, List.getElem?_eq_getElem (by omega), ← here]

theorem slice_eq_extract (ts : TokenStream) (s : Span) :
    ts.slice s = ts.source.extract s.start.offset s.stop.offset :=
  List.extract_eq_take_drop.symm

end TokenStream

/-- A node over located tokens has a span, from its first token through its last. -/
theorem Node.span_ofChildren {ts : TokenStream} {number : Token → Int} {parts : List ParseTree}
    {w : List Token} (tokens : ParseTree.tokensOfAll parts = w) (located : ts.Locates number w)
    {first last : Token} (hf : w.head? = some first) (hl : w.getLast? = some last)
    (kind : String) :
    (ofChildren kind (convertAll number parts)).span ts = .ok ⟨first.start, last.stop⟩ := by
  have start : (ofChildren kind (convertAll number parts)).start = some (number first) := by
    rw [ofChildren, findSome?_start_convertAll, tokens, hf]
    rfl
  have stop : (ofChildren kind (convertAll number parts)).stop = some (number last) := by
    rw [ofChildren, findSome?_stop_convertAll, tokens, hl]
    rfl
  simp only [Node.span, start, stop, TokenStream.span, located first (List.mem_of_head? hf),
    located last (List.mem_of_getLast? hl)]

end PvsIndex
